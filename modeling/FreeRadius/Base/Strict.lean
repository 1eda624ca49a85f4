import FreeRadius.Base.Model
import FreeRadius.Library.Word
import Mathlib.Data.List.TakeWhile

/-!
# Decoding is the inverse of encoding

What the encoders write with padding is decoded to the bytes. What the decoders accept is characters
that their table takes, and the right padding. The tables take some characters that are not in the
alphabet.
-/

namespace FreeRadius.Base

open Library List

section Lawful

/-- The bits are grouped in a way that can be undone. -/
structure Radix.Lawful (r : Radix) : Prop where
  bytes_pos : 0 < r.bytes
  bytes_le : r.bytes ≤ r.chars
  length_split : ∀ l, (r.split l).length = r.chars
  length_join : ∀ l, (r.join l).length = r.bytes
  split_lt : ∀ l, ∀ v ∈ r.split l, v < r.limit
  join_split : ∀ l, l.length = r.bytes → r.join (r.split l) = l
  lastOut_lt : ∀ n, 0 < n → n < r.bytes → (r.lastOut n).1 < r.chars
  lastIn_lastOut : ∀ n, 0 < n → n < r.bytes →
    r.lastIn (r.lastOut n).1 = some (n, (r.lastOut n).2)
  lastIn_zero : r.lastIn 0 = some (0, 0)
  join_last : ∀ l, 0 < l.length → l.length < r.bytes →
    (r.join ((r.split l).take (r.lastOut l.length).1)).take l.length = l

theorem and_lt (x : UInt8) {mask limit : UInt8} (h : mask < limit) : x &&& mask < limit := by
  rw [UInt8.lt_iff_toNat_lt, UInt8.toNat_and]
  exact Nat.and_le_right.trans_lt h

theorem base64_bits (a b c : UInt8) :
    ((a >>> 2 &&& 0x3f) <<< 2 ||| ((a <<< 4 ||| b >>> 4) &&& 0x3f) >>> 4 = a) ∧
    ((((a <<< 4 ||| b >>> 4) &&& 0x3f) <<< 4 &&& (0xf0 : UInt8)) |||
      ((b <<< 2 ||| c >>> 6) &&& 0x3f) >>> 2 = b) ∧
    ((((b <<< 2 ||| c >>> 6) &&& 0x3f) <<< 6 &&& (0xc0 : UInt8)) ||| (c &&& 0x3f) = c) := by
  refine ⟨?_, ?_, ?_⟩ <;> apply UInt8.eq_of_toBitVec_eq <;> ext i hi <;> interval_cases i <;> simp

theorem base64_lawful : base64.Lawful where
  bytes_pos := by decide
  bytes_le := by decide
  length_split _ := rfl
  length_join _ := rfl
  split_lt := by
    intro l v hv
    simp only [base64, mem_cons, not_mem_nil, or_false] at hv
    rcases hv with rfl | rfl | rfl | rfl <;> exact and_lt _ (by decide)
  join_split := by
    rintro l hl
    match l, hl with
    | [a, b, c], _ =>
      obtain ⟨ha, hb, hc⟩ := base64_bits a b c
      simp only [base64, getD_cons_zero, getD_cons_succ, ha, hb, hc]
  lastOut_lt n hpos hlt := by
    have hlt : n < 3 := hlt
    interval_cases n <;> decide
  lastIn_lastOut n hpos hlt := by
    have hlt : n < 3 := hlt
    interval_cases n <;> decide
  lastIn_zero := rfl
  join_last := by
    intro l hpos hlt
    match l, hpos, hlt with
    | [a], _, _ =>
      obtain ⟨ha, -, -⟩ := base64_bits a 0 0
      exact congrArg (fun x => [x]) ha
    | [a, b], _, _ =>
      obtain ⟨ha, hb, -⟩ := base64_bits a b 0
      exact congrArg₂ (fun x y => [x, y]) ha hb
    | _ :: _ :: _ :: _, _, hlt =>
      have : base64.bytes = 3 := rfl
      simp only [length_cons, this] at hlt
      omega

theorem base32_bits (a b c d e : UInt8) :
    ((a >>> 3 &&& 0x1f) <<< 3 ||| ((a <<< 2 ||| b >>> 6) &&& 0x1f) >>> 2 = a) ∧
    (((a <<< 2 ||| b >>> 6) &&& 0x1f) <<< 6 ||| (b >>> 1 &&& 0x1f) <<< 1 |||
      ((b <<< 4 ||| c >>> 4) &&& 0x1f) >>> 4 = b) ∧
    (((b <<< 4 ||| c >>> 4) &&& 0x1f) <<< 4 ||| ((c <<< 1 ||| d >>> 7) &&& 0x1f) >>> 1 = c) ∧
    (((c <<< 1 ||| d >>> 7) &&& 0x1f) <<< 7 ||| (d >>> 2 &&& 0x1f) <<< 2 |||
      ((d <<< 3 ||| e >>> 5) &&& 0x1f) >>> 3 = d) ∧
    (((d <<< 3 ||| e >>> 5) &&& 0x1f) <<< 5 ||| (e &&& 0x1f) = e) := by
  refine ⟨?_, ?_, ?_, ?_, ?_⟩ <;> apply UInt8.eq_of_toBitVec_eq <;> ext i hi <;>
    interval_cases i <;> simp

theorem base32_lawful : base32.Lawful where
  bytes_pos := by decide
  bytes_le := by decide
  length_split _ := rfl
  length_join _ := rfl
  split_lt := by
    intro l v hv
    simp only [base32, mem_cons, not_mem_nil, or_false] at hv
    rcases hv with rfl | rfl | rfl | rfl | rfl | rfl | rfl | rfl <;> exact and_lt _ (by decide)
  join_split := by
    rintro l hl
    match l, hl with
    | [a, b, c, d, e], _ =>
      obtain ⟨ha, hb, hc, hd, he⟩ := base32_bits a b c d e
      simp only [base32, getD_cons_zero, getD_cons_succ, ha, hb, hc, hd, he]
  lastOut_lt n hpos hlt := by
    have hlt : n < 5 := hlt
    interval_cases n <;> decide
  lastIn_lastOut n hpos hlt := by
    have hlt : n < 5 := hlt
    interval_cases n <;> decide
  lastIn_zero := rfl
  join_last := by
    intro l hpos hlt
    match l, hpos, hlt with
    | [a], _, _ =>
      obtain ⟨ha, -⟩ := base32_bits a 0 0 0 0
      exact congrArg (fun x => [x]) ha
    | [a, b], _, _ =>
      obtain ⟨ha, hb, -⟩ := base32_bits a b 0 0 0
      exact congrArg₂ (fun x y => [x, y]) ha hb
    | [a, b, c], _, _ =>
      obtain ⟨ha, hb, hc, -⟩ := base32_bits a b c 0 0
      exact congrArg₂ List.cons ha (congrArg₂ (fun x y => [x, y]) hb hc)
    | [a, b, c, d], _, _ =>
      obtain ⟨ha, hb, hc, hd, -⟩ := base32_bits a b c d 0
      exact congrArg₂ List.cons ha (congrArg₂ List.cons hb (congrArg₂ (fun x y => [x, y]) hc hd))
    | _ :: _ :: _ :: _ :: _ :: _, _, hlt =>
      have : base32.bytes = 5 := rfl
      simp only [length_cons, this] at hlt
      omega

end Lawful

section Decoding

variable {r : Radix} {decode : UInt8 → UInt8} {room : ℕ}

/-- The text is characters that the table takes, and the padding that goes with their number, and
there is room for the bytes. -/
def WellFormed (r : Radix) (valid : UInt8 → Bool) (room : ℕ) (text : List UInt8) : Prop :=
  ∃ body n pad, text = body ++ replicate pad 0x3d ∧ (∀ c ∈ body, valid c = true) ∧
    r.lastIn (body.length % r.chars) = some (n, pad) ∧ body.length / r.chars * r.bytes + n ≤ room

variable {valid : UInt8 → Bool} {text : List UInt8} {p : Position}

theorem length_takeWhile_lt_iff {n : ℕ} :
    (text.takeWhile valid).length < n ↔ ¬(n ≤ text.length ∧ (text.take n).all valid = true) := by
  have hprefix : text.takeWhile valid <+: text := takeWhile_prefix _
  rw [← not_le, not_iff_not]
  constructor
  · intro hle
    have htake : text.take n = (text.takeWhile valid).take n := by
      obtain ⟨rest, hrest⟩ := hprefix
      conv_lhs => rw [← hrest]
      rw [take_append_of_le_length hle]
    refine ⟨hle.trans hprefix.length_le, all_eq_true.mpr fun c hc => ?_⟩
    rw [htake] at hc
    exact mem_takeWhile_imp (mem_of_mem_take hc)
  · rintro ⟨hlen, hall⟩
    rw [← take_append_drop n text, takeWhile_append_of_pos fun c hc => all_eq_true.mp hall c hc,
      length_append, length_take, Nat.min_eq_left hlen]
    exact Nat.le_add_right _ _

theorem takeWhile_drop {n : ℕ} (h : n ≤ (text.takeWhile valid).length) :
    (text.takeWhile valid).length = n + ((text.drop n).takeWhile valid).length ∧
      text.dropWhile valid = (text.drop n).dropWhile valid := by
  obtain ⟨hlen, hall⟩ := not_not.mp (mt length_takeWhile_lt_iff.mpr h.not_gt)
  have hvalid : ∀ c ∈ text.take n, valid c = true := fun c hc => all_eq_true.mp hall c hc
  constructor
  · conv_lhs => rw [← take_append_drop n text, takeWhile_append_of_pos hvalid]
    rw [length_append, length_take_of_le hlen]
  · conv_lhs => rw [← take_append_drop n text, dropWhile_append_of_pos hvalid]

/-- The loop decodes the complete quanta in front, if there is room for them. -/
theorem decodeQuanta_eq (decode : UInt8 → UInt8) (hr : r.Lawful) {rounds : ℕ}
    (hrounds : p.text.length ≤ rounds) (hout : p.out.length ≤ room) {quanta : ℕ}
    (hquanta : quanta = (p.text.takeWhile (isBase r decode)).length / r.chars) :
    if p.out.length + quanta * r.bytes ≤ room then
      ∃ p', decodeQuanta r decode room rounds p = .ok p' ∧
        p'.text = p.text.drop (quanta * r.chars) ∧ p'.out.length = p.out.length + quanta * r.bytes
    else ∃ e, decodeQuanta r decode room rounds p = .error e := by
  have hpos : 0 < r.chars := hr.bytes_pos.trans_le hr.bytes_le
  induction rounds generalizing p quanta with
  | zero =>
    have hnil : p.text = [] := length_eq_zero_iff.mp (Nat.le_zero.mp hrounds)
    rw [hnil, takeWhile_nil, length_nil, Nat.zero_div] at hquanta
    subst hquanta
    rw [Nat.zero_mul, Nat.zero_mul, Nat.add_zero, if_pos hout]
    exact ⟨p, rfl, rfl, rfl⟩
  | succ rounds ih =>
    rw [decodeQuanta]
    by_cases hlt : (p.text.takeWhile (isBase r decode)).length < r.chars
    · rw [Nat.div_eq_of_lt hlt] at hquanta
      subst hquanta
      rw [Nat.zero_mul, Nat.zero_mul, Nat.add_zero, if_pos hout,
        if_neg (length_takeWhile_lt_iff.mp hlt)]
      exact ⟨p, rfl, rfl, rfl⟩
    obtain ⟨hrest, -⟩ := takeWhile_drop (Nat.le_of_not_lt hlt)
    obtain ⟨k, rfl⟩ : ∃ k, quanta = k + 1 := by
      rw [hrest, Nat.add_div_left _ hpos] at hquanta
      exact ⟨_, hquanta⟩
    rw [hrest, Nat.add_div_left _ hpos] at hquanta
    have hk := Nat.succ.inj hquanta
    rw [if_pos (not_not.mp (mt length_takeWhile_lt_iff.mpr hlt)), Nat.succ_mul, Nat.succ_mul]
    by_cases hroom : p.out.length + r.bytes ≤ room
    · rw [if_pos hroom]
      have hjoin : (p.out ++ r.join ((p.text.take r.chars).map decode)).length =
          p.out.length + r.bytes := by rw [length_append, hr.length_join]
      have hdrop : (p.text.drop r.chars).length = p.text.length - r.chars := length_drop
      have h := ih (p := ⟨p.text.drop r.chars, p.offset + r.chars, _⟩) (by dsimp only; omega)
        (hjoin.trans_le hroom) hk
      dsimp only at h
      rw [hjoin, drop_drop] at h
      rwa [Nat.add_comm (k * r.bytes), ← Nat.add_assoc, Nat.add_comm (k * r.chars)]
    · rw [if_neg hroom, if_neg (by omega)]
      exact ⟨_, rfl⟩

theorem skipPadding_ok_iff (pad : ℕ) {left : ℕ} {q : Position} :
    skipPadding pad left p = .ok q ↔
      p.text = replicate left 0x3d ++ q.text ∧ q.offset = p.offset + left ∧
        q.out = p.out := by
  induction left generalizing p with
  | zero =>
    rw [skipPadding, Except.ok.injEq]
    constructor
    · rintro rfl
      exact ⟨rfl, rfl, rfl⟩
    rintro ⟨htext, hoffset, hout⟩
    cases p
    cases q
    simp_all
  | succ left ih =>
    rw [skipPadding]
    split
    · next hnil =>
      refine ⟨nofun, fun h => ?_⟩
      rw [hnil] at h
      exact absurd h.1 nofun
    next c text hcons =>
    split
    · next hc =>
      rw [ih, hcons, hc, replicate_succ, cons_append, List.cons.injEq]
      dsimp only
      constructor
      · rintro ⟨htext, hoffset, hout⟩
        exact ⟨⟨rfl, htext⟩, by omega, hout⟩
      · rintro ⟨⟨-, htext⟩, hoffset, hout⟩
        exact ⟨htext, by omega, hout⟩
    · next hc =>
      refine ⟨nofun, fun h => ?_⟩
      rw [hcons, replicate_succ, cons_append] at h
      exact absurd (List.cons.inj h.1).1 hc

/-- Behind the complete quanta, what counts is the padding. -/
theorem decodeFinal_isOk_iff :
    (∃ p', decodeFinal r decode room true true p = .ok p') ↔
      ∃ n pad, r.lastIn (p.text.takeWhile (isBase r decode)).length = some (n, pad) ∧
        p.out.length + n ≤ room ∧ p.text.dropWhile (isBase r decode) = replicate pad 0x3d := by
  rw [decodeFinal]
  dsimp only
  split
  · next hnone =>
    refine ⟨nofun, ?_⟩
    rintro ⟨n, pad, hsome, -⟩
    rw [hnone] at hsome
    cases hsome
  next n pad hsome =>
  split
  rotate_left
  · next hroom =>
    refine ⟨nofun, ?_⟩
    rintro ⟨n', pad', hsome', hroom', -⟩
    rw [hsome] at hsome'
    cases hsome'
    exact absurd hroom' hroom
  next hroom =>
  rw [if_pos rfl]
  constructor
  · rintro ⟨p', h⟩
    refine ⟨n, pad, hsome, hroom, ?_⟩
    cases hskip : skipPadding pad pad _ with
    | error e =>
      rw [hskip] at h
      cases h
    | ok q =>
      rw [hskip] at h
      obtain ⟨htext, -⟩ := (skipPadding_ok_iff pad).mp hskip
      dsimp only [Except.bind] at h
      cases hq : q.text with
      | nil =>
        rw [hq, append_nil] at htext
        exact htext
      | cons c text =>
        rw [hq] at h
        cases h
  · rintro ⟨n', pad', hsome', -, hdrop⟩
    rw [hsome] at hsome'
    cases hsome'
    rw [(skipPadding_ok_iff pad (q := { text := [], offset := _, out := _ })).mpr
      ⟨by rw [append_nil]; exact hdrop, rfl, rfl⟩]
    exact ⟨_, rfl⟩

theorem takeWhile_body (hpad : valid 0x3d = false) {body : List UInt8}
    (hbody : ∀ c ∈ body, valid c = true) (pad : ℕ) :
    (body ++ replicate pad 0x3d).takeWhile valid = body ∧
      (body ++ replicate pad 0x3d).dropWhile valid = replicate pad 0x3d := by
  have hnone : (replicate pad (0x3d : UInt8)).takeWhile valid = [] ∧
      (replicate pad (0x3d : UInt8)).dropWhile valid = replicate pad 0x3d := by
    cases pad with
    | zero => exact ⟨rfl, rfl⟩
    | succ pad =>
      have hnot : ¬valid 0x3d = true := by rw [hpad]; decide
      exact ⟨takeWhile_cons_of_neg hnot, dropWhile_cons_of_neg hnot⟩
  rw [takeWhile_append_of_pos hbody, dropWhile_append_of_pos hbody, hnone.1, hnone.2, append_nil]
  exact ⟨rfl, rfl⟩

/-- The decoder accepts what is well-formed. -/
theorem decodeNstd_isOk_iff (hr : r.Lawful) (hpad : isBase r decode 0x3d = false) :
    (∃ p, decodeNstd r decode room text true true = .ok p) ↔
      WellFormed r (isBase r decode) room text := by
  have hform : WellFormed r (isBase r decode) room text ↔
      ∃ n pad, r.lastIn ((text.takeWhile (isBase r decode)).length % r.chars) = some (n, pad) ∧
        (text.takeWhile (isBase r decode)).length / r.chars * r.bytes + n ≤ room ∧
        text.dropWhile (isBase r decode) = replicate pad 0x3d := by
    constructor
    · rintro ⟨body, n, pad, rfl, hbody, hlast, hroom⟩
      obtain ⟨htake, hdrop⟩ := takeWhile_body hpad hbody pad
      exact ⟨n, pad, by rw [htake]; exact hlast, by rw [htake]; exact hroom, hdrop⟩
    · rintro ⟨n, pad, hlast, hroom, hpadding⟩
      refine ⟨_, n, pad, ?_, fun c => mem_takeWhile_imp, hlast, hroom⟩
      rw [← hpadding, takeWhile_append_dropWhile]
  obtain ⟨quanta, hquanta⟩ : ∃ q, q = (text.takeWhile (isBase r decode)).length / r.chars := ⟨_, rfl⟩
  have hdecode := decodeQuanta_eq (p := { text := text, offset := 0, out := [] }) decode hr le_rfl
    (Nat.zero_le room) hquanta
  obtain ⟨htake, hdrop⟩ := @takeWhile_drop (isBase r decode) text (quanta * r.chars)
    (hquanta ▸ Nat.div_mul_le_self _ _)
  have hmod : (text.takeWhile (isBase r decode)).length % r.chars =
      ((text.drop (quanta * r.chars)).takeWhile (isBase r decode)).length := by
    have := Nat.div_add_mod' (text.takeWhile (isBase r decode)).length r.chars
    rw [← hquanta] at this
    omega
  rw [hform, ← hquanta, hmod, hdrop, decodeNstd]
  split at hdecode
  · obtain ⟨p, hp, htext, hlen⟩ := hdecode
    rw [hp]
    refine (decodeFinal_isOk_iff (p := p)).trans ?_
    rw [htext, hlen, length_nil, Nat.zero_add]
  · next hroom =>
    obtain ⟨e, he⟩ := hdecode
    rw [he]
    refine ⟨nofun, ?_⟩
    rintro ⟨n, pad, -, hroom', -⟩
    exact absurd (by rw [length_nil]; omega) hroom

end Decoding

section RoundTrip

variable {r : Radix} {encode decode : UInt8 → UInt8} {room : ℕ}

/-- The tables are inverse to each other on the values. -/
def Inverse (r : Radix) (encode decode : UInt8 → UInt8) : Prop :=
  ∀ v, v < r.limit → decode (encode v) = v

variable {vals out : List UInt8} {rounds : ℕ}

theorem map_decode_encode (h : Inverse r encode decode) (hvals : ∀ v ∈ vals, v < r.limit) :
    (vals.map encode).map decode = vals := by
  rw [map_map]
  exact (map_congr_left fun v hv => h v (hvals v hv)).trans (map_id' _)

theorem isBase_of_mem_map (h : Inverse r encode decode) (hvals : ∀ v ∈ vals, v < r.limit) :
    ∀ c ∈ vals.map encode, isBase r decode c = true := by
  intro c hc
  obtain ⟨v, hv, rfl⟩ := mem_map.mp hc
  rw [isBase, h v (hvals v hv)]
  exact decide_eq_true (hvals v hv)

theorem decodeQuanta_full (hr : r.Lawful) (h : Inverse r encode decode) {bytes : List UInt8}
    (hbytes : bytes.length = r.bytes) (rounds offset : ℕ) (more out : List UInt8)
    (hroom : out.length + r.bytes ≤ room) :
    decodeQuanta r decode room (rounds + 1)
        { text := (r.split bytes).map encode ++ more, offset := offset, out := out } =
      decodeQuanta r decode room rounds
        { text := more, offset := offset + r.chars, out := out ++ bytes } := by
  have hlen : ((r.split bytes).map encode).length = r.chars := by
    rw [length_map, hr.length_split]
  have htake : ((r.split bytes).map encode ++ more).take r.chars = (r.split bytes).map encode := by
    rw [← hlen, take_left]
  have hdrop : ((r.split bytes).map encode ++ more).drop r.chars = more := by
    rw [← hlen, drop_left]
  have hcond : r.chars ≤ ((r.split bytes).map encode ++ more).length ∧
      (((r.split bytes).map encode ++ more).take r.chars).all (isBase r decode) = true := by
    refine ⟨by rw [length_append]; omega, ?_⟩
    rw [htake, all_eq_true]
    exact isBase_of_mem_map h (hr.split_lt bytes)
  rw [decodeQuanta, if_pos hcond, if_pos hroom]
  rw [htake, hdrop, map_decode_encode h (hr.split_lt bytes), hr.join_split bytes hbytes]

theorem decodeQuanta_stop {p : Position}
    (h : (p.text.takeWhile (isBase r decode)).length < r.chars) :
    decodeQuanta r decode room rounds p = .ok p := by
  cases rounds with
  | zero => rfl
  | succ rounds => exact if_neg (length_takeWhile_lt_iff.mp h)

theorem decodeFinal_last (hpad : isBase r decode 0x3d = false) (chars : List UInt8)
    (hchars : ∀ c ∈ chars, isBase r decode c = true) {n pad : ℕ}
    (hlast : r.lastIn chars.length = some (n, pad)) (hroom : out.length + n ≤ room) (offset : ℕ) :
    decodeFinal r decode room true true
        { text := chars ++ replicate pad 0x3d, offset := offset, out := out } =
      .ok { text := [], offset := offset + chars.length + pad,
            out := out ++ (r.join (chars.map decode)).take n } := by
  obtain ⟨htake, hdrop⟩ := takeWhile_body hpad hchars pad
  rw [decodeFinal]
  rw [htake, hlast]
  dsimp only
  rw [if_pos hroom, if_pos rfl, hdrop,
    (skipPadding_ok_iff pad (q := { text := [], offset := _, out := _ })).mpr
      ⟨(append_nil _).symm, rfl, rfl⟩]
  rfl

/-- What the encoder writes, with padding. -/
def encoded (r : Radix) (encode : UInt8 → UInt8) : ℕ → List UInt8 → List UInt8
  | 0, _ => []
  | rounds + 1, input =>
    if r.bytes ≤ input.length then
      (r.split (input.take r.bytes)).map encode ++ encoded r encode rounds (input.drop r.bytes)
    else if input = [] then []
    else
      ((r.split input).take (r.lastOut input.length).1).map encode ++
        replicate (r.lastOut input.length).2 0x3d

/-- What is encoded is decoded again. -/
theorem decode_encoded (hr : r.Lawful) (h : Inverse r encode decode)
    (hpad : isBase r decode 0x3d = false) {rounds' : ℕ} {input o : List UInt8}
    (hrounds : input.length < rounds) (hrounds' : (encoded r encode rounds input).length ≤ rounds')
    (hroom : o.length + input.length ≤ room) (offset : ℕ) :
    (decodeQuanta r decode room rounds'
        { text := encoded r encode rounds input, offset := offset, out := o }).bind
        (decodeFinal r decode room true true) =
      .ok { text := [], offset := offset + (encoded r encode rounds input).length,
            out := o ++ input } := by
  induction rounds generalizing input o offset rounds' with
  | zero => exact absurd hrounds (Nat.not_lt_zero _)
  | succ rounds ih =>
    have hpos := hr.bytes_pos
    have hle := hr.bytes_le
    rw [encoded] at hrounds' ⊢
    split at hrounds'
    · next hfull =>
      have hbytes : (input.take r.bytes).length = r.bytes := List.length_take_of_le hfull
      have hdrop : (input.drop r.bytes).length = input.length - r.bytes := List.length_drop
      have hlen : ((r.split (input.take r.bytes)).map encode).length = r.chars := by
        rw [List.length_map, hr.length_split]
      rw [List.length_append, hlen] at hrounds'
      obtain ⟨k, rfl⟩ := Nat.exists_eq_succ_of_ne_zero (by omega : rounds' ≠ 0)
      rw [if_pos hfull, decodeQuanta_full hr h hbytes _ _ _ _ (by omega),
        ih (by omega) (by omega) (by rw [List.length_append, hbytes, hdrop]; omega),
        List.append_assoc, List.take_append_drop, List.length_append, hlen, Nat.add_assoc]
    next hshort =>
    rw [if_neg hshort]
    split at hrounds'
    · next hnil =>
      rw [if_pos hnil]
      rw [hnil] at hroom ⊢
      rw [decodeQuanta_stop (by exact hpos.trans_le hle)]
      exact decodeFinal_last hpad [] nofun hr.lastIn_zero hroom offset
    next hne =>
    have hinput : 0 < input.length := List.length_pos_iff.mpr hne
    have hlt : input.length < r.bytes := Nat.lt_of_not_le hshort
    rw [if_neg hne]
    obtain ⟨vals, hvals⟩ : ∃ vals, vals = (r.split input).take (r.lastOut input.length).1 :=
      ⟨_, rfl⟩
    have hlimit : ∀ v ∈ vals, v < r.limit := fun v hv =>
      hr.split_lt input v (List.mem_of_mem_take (hvals ▸ hv))
    have hcount : vals.length = (r.lastOut input.length).1 := by
      rw [hvals, List.length_take, hr.length_split]
      exact Nat.min_eq_left (hr.lastOut_lt _ hinput hlt).le
    have hchars := isBase_of_mem_map h hlimit
    have hlast : r.lastIn (vals.map encode).length =
        some (input.length, (r.lastOut input.length).2) := by
      rw [List.length_map, hcount, hr.lastIn_lastOut _ hinput hlt]
    have htake := (takeWhile_body hpad hchars (r.lastOut input.length).2).1
    have hjoin : (r.join vals).take input.length = input := by
      rw [hvals]
      exact hr.join_last input hinput hlt
    rw [← hvals, decodeQuanta_stop (by
      rw [htake, List.length_map, hcount]
      exact hr.lastOut_lt _ hinput hlt)]
    refine (decodeFinal_last hpad _ hchars hlast hroom offset).trans ?_
    rw [map_decode_encode h hlimit, hjoin, List.length_append, List.length_replicate,
      Nat.add_assoc]

theorem sbuffIn_append (out a b : List UInt8) :
    ((sbuffIn room out a).bind fun out => sbuffIn room out b) = sbuffIn room out (a ++ b) := by
  unfold sbuffIn
  by_cases ha : (out ++ a).length ≤ room
  · rw [if_pos ha, ← append_assoc]
    rfl
  have hab : ¬(out ++ (a ++ b)).length ≤ room := by
    simp only [length_append] at ha ⊢
    omega
  rw [if_neg ha, if_neg hab]
  rfl

theorem sbuffIn_nil (h : out.length ≤ room) : sbuffIn room out [] = some out := by
  rw [sbuffIn, append_nil, if_pos h]

/-- The encoder fails for want of room only. -/
theorem encodeLoop_eq (rounds : ℕ) (input : List UInt8) (hout : out.length ≤ room) :
    encodeLoop r encode room true rounds input out =
      sbuffIn room out (encoded r encode rounds input) := by
  induction rounds generalizing input out with
  | zero => exact (sbuffIn_nil hout).symm
  | succ rounds ih =>
    rw [encodeLoop, encoded]
    split
    · rw [← sbuffIn_append]
      rw [sbuffIn]
      split
      · next hle => exact ih _ hle
      · rfl
    · split
      · exact (sbuffIn_nil hout).symm
      · exact sbuffIn_append out _ _

end RoundTrip

section Alphabets

/-- The four codings. -/
inductive Coding where
  | base64 | base64Url | base32 | base32Hex
  deriving DecidableEq, Repr

namespace Coding

def radix : Coding → Radix
  | .base64 | .base64Url => Base.base64
  | .base32 | .base32Hex => Base.base32

def alphabet : Coding → Alphabet
  | .base64 => frBase64Alphabet
  | .base64Url => frBase64UrlAlphabet
  | .base32 => frBase32Alphabet
  | .base32Hex => frBase32HexAlphabet

def encode (coding : Coding) (room : ℕ) (input : List UInt8) (addPadding : Bool) :
    Option (List UInt8) :=
  match coding with
  | .base64 | .base64Url => frBase64EncodeNstd coding.alphabet room input addPadding
  | .base32 | .base32Hex => frBase32EncodeNstd coding.alphabet room input addPadding

def decode (coding : Coding) (behind : UInt8) (room : ℕ) (text : List UInt8)
    (expectPadding noTrailing : Bool) : Except (DecodeError × ℕ) Position :=
  match coding with
  | .base64 | .base64Url =>
    frBase64DecodeNstd coding.alphabet behind room text expectPadding noTrailing
  | .base32 | .base32Hex =>
    frBase32DecodeNstd coding.alphabet behind room text expectPadding noTrailing

/-- The character that no initialiser of the table for decoding is for: '*' and ','. -/
def missing : Coding → Option UInt8
  | .base64 => some 0x2a
  | .base64Url => some 0x2c
  | .base32 | .base32Hex => none

/-- A character that is not in the alphabet but is taken for a value. The character 255 gets the byte
behind the table. -/
def Stray (coding : Coding) (behind c : UInt8) : Prop :=
  coding.missing = some c ∨ c = 255 ∧ behind < coding.radix.limit

/-- The text is characters of the alphabet and the padding that goes with their number. -/
def Strict (coding : Coding) (text : List UInt8) : Prop :=
  ∃ body n pad, text = body ++ replicate pad 0x3d ∧ (∀ c ∈ body, c ∈ coding.alphabet.chars) ∧
    coding.radix.lastIn (body.length % coding.radix.chars) = some (n, pad)

/-- The text would be strict, but for some characters that are stray, and there is room for it. -/
def Sloppy (coding : Coding) (behind : UInt8) (room : ℕ) (text : List UInt8) : Prop :=
  ∃ body n pad, text = body ++ replicate pad 0x3d ∧
    (∀ c ∈ body, c ∈ coding.alphabet.chars ∨ coding.Stray behind c) ∧
    coding.radix.lastIn (body.length % coding.radix.chars) = some (n, pad) ∧
    body.length / coding.radix.chars * coding.radix.bytes + n ≤ room ∧
    ∃ c ∈ body, coding.Stray behind c

theorem lawful (coding : Coding) : coding.radix.Lawful := by
  cases coding with
  | base64 | base64Url => exact base64_lawful
  | base32 | base32Hex => exact base32_lawful

theorem encode_eq (coding : Coding) (room : ℕ) (input : List UInt8) (addPadding : Bool) :
    coding.encode room input addPadding =
      encodeNstd coding.radix coding.alphabet.encode room input addPadding := by
  cases coding <;> rfl

theorem decode_eq (coding : Coding) (behind : UInt8) (room : ℕ) (text : List UInt8)
    (expectPadding noTrailing : Bool) :
    coding.decode behind room text expectPadding noTrailing =
      decodeNstd coding.radix (tableOf coding.alphabet.decode behind) room text expectPadding
        noTrailing := by
  cases coding <;> rfl

variable {c behind : UInt8} {coding : Coding}

theorem tableOf_eq {inits : List Init} (hc : c ≠ 255) (behind : UInt8) :
    tableOf inits behind c = tableOf inits 0 c := by
  rw [tableOf, tableOf, if_neg hc, if_neg hc]

theorem mem_charRange {first : UInt8} {k : ℕ} : c ∈ charRange first k ↔ (c - first).toNat < k := by
  rw [charRange, mem_map]
  constructor
  · rintro ⟨i, hi, rfl⟩
    rw [UInt8.add_comm, UInt8.add_sub_cancel, UInt8.toNat_ofNat']
    exact (Nat.mod_le _ _).trans_lt (mem_range.mp hi)
  · intro h
    refine ⟨(c - first).toNat, mem_range.mpr h, ?_⟩
    rw [UInt8.ofNat_toNat, UInt8.add_comm, UInt8.sub_add_cancel]

/-- The characters of the alphabet, range by range. -/
def IsChar : Coding → UInt8 → Prop
  | .base64, c => (c - 0x41).toNat < 26 ∨ (c - 0x61).toNat < 26 ∨ (c - 0x30).toNat < 10 ∨
      c = 0x2b ∨ c = 0x2f
  | .base64Url, c => (c - 0x41).toNat < 26 ∨ (c - 0x61).toNat < 26 ∨ (c - 0x30).toNat < 10 ∨
      c = 0x2d ∨ c = 0x5f
  | .base32, c => (c - 0x41).toNat < 26 ∨ (c - 0x32).toNat < 6
  | .base32Hex, c => (c - 0x30).toNat < 10 ∨ (c - 0x41).toNat < 22

instance (coding : Coding) (c : UInt8) : Decidable (coding.IsChar c) := by
  cases coding <;> exact inferInstanceAs (Decidable (_ ∨ _))

theorem mem_chars (coding : Coding) (c : UInt8) : c ∈ coding.alphabet.chars ↔ coding.IsChar c := by
  cases coding <;>
    simp only [alphabet, frBase64Alphabet, frBase64UrlAlphabet, frBase32Alphabet, frBase32HexAlphabet,
      IsChar, mem_append, mem_charRange, mem_cons, not_mem_nil, or_false, or_assoc]

theorem tables (coding : Coding) (b : UInt8) :
    (b < coding.radix.limit → coding.alphabet.encode b ≠ 255 ∧
      tableOf coding.alphabet.decode 0 (coding.alphabet.encode b) = b) ∧
    (b ≠ 255 → (tableOf coding.alphabet.decode 0 b < coding.radix.limit ↔
      coding.IsChar b ∨ coding.missing = some b)) ∧
    (coding.IsChar b → b ≠ 255 ∧ b ≠ 0x3d ∧ coding.missing ≠ some b) := by
  revert b
  cases coding <;> exact forall_uint8 (by decide +kernel)

theorem inverse (coding : Coding) (behind : UInt8) :
    Inverse coding.radix coding.alphabet.encode (tableOf coding.alphabet.decode behind) := by
  intro v hv
  obtain ⟨hne, heq⟩ := (coding.tables v).1 hv
  rw [tableOf_eq hne, heq]

/-- What the table for decoding takes: the alphabet, and the stray characters. -/
theorem isBase_iff (coding : Coding) (behind c : UInt8) :
    isBase coding.radix (tableOf coding.alphabet.decode behind) c = true ↔
      c ∈ coding.alphabet.chars ∨ coding.Stray behind c := by
  obtain ⟨-, htable, hchar⟩ := coding.tables c
  rw [isBase, decide_eq_true_eq, mem_chars, Stray]
  by_cases hc : c = 255
  · have hnot : ¬coding.IsChar c := fun h => (hchar h).1 hc
    have hmissing : coding.missing ≠ some c := by
      subst hc
      cases coding <;> decide
    rw [tableOf, if_pos hc]
    exact ⟨fun h => .inr (.inr ⟨hc, h⟩), fun h => (h.resolve_left hnot).elim (absurd · hmissing) (·.2)⟩
  · rw [tableOf_eq hc, htable hc]
    exact or_congr_right ⟨.inl, fun h => h.resolve_right fun h => hc h.1⟩

theorem not_stray_of_mem (h : c ∈ coding.alphabet.chars) : ¬coding.Stray behind c := by
  obtain ⟨hne, -, hmissing⟩ := (coding.tables c).2.2 ((coding.mem_chars c).mp h)
  rintro (h | ⟨h, -⟩)
  · exact hmissing h
  · exact hne h

theorem isBase_pad (coding : Coding) (behind : UInt8) :
    isBase coding.radix (tableOf coding.alphabet.decode behind) 0x3d = false := by
  rw [Bool.eq_false_iff, ne_eq, isBase_iff]
  rintro (h | h | ⟨h, -⟩)
  · exact ((coding.tables 0x3d).2.2 ((coding.mem_chars _).mp h)).2.1 rfl
  · revert h
    cases coding <;> decide
  · revert h
    decide

/-- What is accepted and is not strict has stray characters. -/
theorem strict_iff {text : List UInt8} {room : ℕ} :
    (WellFormed coding.radix (isBase coding.radix (tableOf coding.alphabet.decode behind)) room text →
      coding.Strict text) ↔ ¬coding.Sloppy behind room text := by
  constructor
  · rintro h ⟨body, n, pad, rfl, hbody, hlast, hroom, c, hc, hstray⟩
    have hvalid : ∀ c ∈ body, isBase coding.radix (tableOf coding.alphabet.decode behind) c = true :=
      fun c hc => (coding.isBase_iff behind c).mpr (hbody c hc)
    obtain ⟨body', n', pad', htext, hbody', -⟩ := h ⟨body, n, pad, rfl, hvalid, hlast, hroom⟩
    have hvalid' : ∀ c ∈ body', isBase coding.radix (tableOf coding.alphabet.decode behind) c = true :=
      fun c hc => (coding.isBase_iff behind c).mpr (.inl (hbody' c hc))
    -- the body is what is in front of the padding, so it is the same one
    have hsame : body = body' := by
      rw [← (takeWhile_body (coding.isBase_pad behind) hvalid pad).1, htext,
        (takeWhile_body (coding.isBase_pad behind) hvalid' pad').1]
    exact not_stray_of_mem (hbody' c (hsame ▸ hc)) hstray
  · rintro h ⟨body, n, pad, htext, hbody, hlast, hroom⟩
    refine ⟨body, n, pad, htext, fun c hc => ?_, hlast⟩
    have hchar := (coding.isBase_iff behind c).mp (hbody c hc)
    refine hchar.resolve_right fun hstray =>
      h ⟨body, n, pad, htext, fun c hc => ?_, hlast, hroom, c, hc, hstray⟩
    exact (coding.isBase_iff behind c).mp (hbody c hc)

end Coding

/-- For all four alphabets, what is encoded with padding is decoded again, if there is room. What
is decoded is characters of the alphabet and the right padding if and only if it is not a text that
has stray characters in their place; and all such texts are decoded if there is room for the bytes. -/
theorem decode_strict_iff (coding : Coding) (behind : UInt8) :
    (∀ input : List UInt8, ∃ text : List UInt8,
      (∀ room, coding.encode room input true = if text.length ≤ room then some text else none) ∧
      ∀ room, input.length ≤ room →
        coding.decode behind room text true true =
          .ok { text := [], offset := text.length, out := input }) ∧
    (∀ (text : List UInt8) (room : ℕ),
      (((∃ p, coding.decode behind room text true true = .ok p) → coding.Strict text) ↔
        ¬coding.Sloppy behind room text)) ∧
    ∀ (body : List UInt8) (n pad room : ℕ), (∀ c ∈ body, c ∈ coding.alphabet.chars) →
      coding.radix.lastIn (body.length % coding.radix.chars) = some (n, pad) →
      body.length / coding.radix.chars * coding.radix.bytes + n ≤ room →
      ∃ p, coding.decode behind room (body ++ replicate pad 0x3d) true true = .ok p := by
  refine ⟨fun input => ?_, fun text room => ?_, fun body n pad room hbody hlast hroom => ?_⟩
  · refine ⟨encoded coding.radix coding.alphabet.encode (input.length + 1) input, fun room => ?_,
      fun room hroom => ?_⟩
    · rw [Coding.encode_eq, encodeNstd, encodeLoop_eq _ _ (Nat.zero_le _), sbuffIn, nil_append]
    · rw [Coding.decode_eq, decodeNstd, decode_encoded coding.lawful (coding.inverse behind)
        (coding.isBase_pad behind) (Nat.lt_succ_self _) le_rfl
        (by rwa [length_nil, Nat.zero_add]), Nat.zero_add, nil_append]
  · rw [← Coding.strict_iff]
    simp only [Coding.decode_eq]
    rw [decodeNstd_isOk_iff coding.lawful (coding.isBase_pad behind)]
  · simp only [Coding.decode_eq]
    refine (decodeNstd_isOk_iff coding.lawful (coding.isBase_pad behind)).mpr
      ⟨body, n, pad, rfl, fun c hc => ?_, hlast, hroom⟩
    exact (coding.isBase_iff behind c).mpr (.inl (hbody c hc))

/-- "AAAAAAAAAA==" is the encoding of seven zero bytes. -/
theorem decode_strict_zero : Coding.base64.Strict (replicate 10 0x41 ++ [0x3d, 0x3d]) := by
  refine ((decode_strict_iff .base64 0xff).2.1 (replicate 10 0x41 ++ [0x3d, 0x3d]) 7).mpr ?_
    ⟨{ text := [], offset := 12, out := replicate 7 0 }, by decide +kernel⟩
  rintro ⟨body, n, pad, htext, -, -, -, c, hc, hstray⟩
  have hmem : c ∈ replicate 10 0x41 ++ [0x3d, 0x3d] := by
    rw [htext]
    exact mem_append_left _ hc
  simp only [mem_append, mem_replicate, mem_cons, not_mem_nil, or_false, or_self] at hmem
  rw [Coding.Stray] at hstray
  revert hstray
  obtain ⟨-, rfl⟩ | rfl := hmem <;> decide

/-- "A*==" is decoded as "AA==" is, and so is "A,==" with the other alphabet of base64. -/
theorem decode_star :
    Coding.base64.decode 0xff 4 [0x41, 0x2a, 0x3d, 0x3d] true true =
        .ok { text := [], offset := 4, out := [0] } ∧
      ¬Coding.base64.Strict [0x41, 0x2a, 0x3d, 0x3d] ∧
      Coding.base64Url.decode 0xff 4 [0x41, 0x2c, 0x3d, 0x3d] true true =
        .ok { text := [], offset := 4, out := [0] } ∧
      ¬Coding.base64Url.Strict [0x41, 0x2c, 0x3d, 0x3d] := by
  have hnot : ∀ (coding : Coding) (c : UInt8), c ∉ coding.alphabet.chars → c ≠ 0x3d →
      ¬coding.Strict [0x41, c, 0x3d, 0x3d] := by
    rintro coding c hc hne ⟨body, n, pad, htext, hbody, -⟩
    have hmem : c ∈ body ++ replicate pad 0x3d := by
      rw [← htext]
      exact mem_cons_of_mem _ mem_cons_self
    rcases mem_append.mp hmem with h | h
    · exact hc (hbody c h)
    · exact hne (eq_of_mem_replicate h)
  refine ⟨by decide +kernel, hnot _ _ ?_ (by decide), by decide +kernel, hnot _ _ ?_ (by decide)⟩
  · rw [Coding.mem_chars]
    decide
  · rw [Coding.mem_chars]
    decide

end Alphabets

end FreeRadius.Base
