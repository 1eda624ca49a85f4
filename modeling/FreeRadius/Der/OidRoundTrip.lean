import FreeRadius.Der.Oid

/-!
# Object identifiers that are encoded and decoded

The decoder reads the bytes of the subidentifiers back to the text. The encoder writes these bytes
if and only if no digit of a subidentifier is zero and nothing is read behind the text.
-/

namespace FreeRadius.Der

open Library List

section Decoding

variable {σ : Type} (func : UInt64 → σ → Bool → Except DerError σ)

/-- What `fr_der_decode_oid` does with a subidentifier that is complete. -/
def subidDone (rest : List UInt8) (first : Bool) (oid : UInt64) (uctx : σ) : Except DerError σ :=
  if first then
    (func (if oid < 40 then 0 else if oid < 80 then 1 else 2) uctx (rest = [])).bind fun uctx =>
    (func (if oid < 40 then oid else if oid < 80 then oid - 40 else oid - 80) uctx (rest = [])).bind
      fun uctx => decodeOidLoop func rest false 0 0 uctx
  else
    (func oid uctx (rest = [])).bind fun uctx => decodeOidLoop func rest false 0 0 uctx

variable {d n m : ℕ}

theorem septet_more (hd : d < 128) (ds : List ℕ) : septet d ds &&& 0x80 ≠ 0 ↔ ds ≠ [] := by
  have hall : ∀ d : Fin 128, UInt8.ofNat d &&& 0x80 = 0 ∧ (0x80 ||| UInt8.ofNat d) &&& 0x80 ≠ 0 := by
    decide
  rw [septet]
  split
  · next h => exact ⟨fun hmore => absurd (hall ⟨d, hd⟩).1 hmore, fun hne => absurd h hne⟩
  · next h => exact ⟨fun _ => h, fun _ => (hall ⟨d, hd⟩).2⟩

theorem shift_in_septet (hn : n < 128 ^ m) (hm : m < 9) (hd : d < 128) (ds : List ℕ) :
    UInt64.ofNat n <<< 7 ||| (septet d ds &&& 0x7f).toUInt64 = UInt64.ofNat (n * 128 + d) := by
  have hpow : 128 ^ m ≤ 128 ^ 8 := Nat.pow_le_pow_right (by decide) (by omega)
  have hshift : (UInt64.ofNat n <<< 7).toNat = 2 ^ 7 * n := by
    rw [UInt64.toNat_shiftLeft, Nat.shiftLeft_eq, UInt64.toNat_ofNat']
    change n % 2 ^ 64 * 2 ^ 7 % 2 ^ 64 = _
    omega
  have hdigit : (UInt8.ofNat d).toUInt64.toNat = d := by
    rw [UInt8.toNat_toUInt64, UInt8.toNat_ofNat']
    omega
  apply UInt64.toNat.inj
  rw [septet_and hd, UInt64.toNat_or, hshift, hdigit, ← Nat.two_pow_add_eq_or_of_lt hd,
    UInt64.toNat_ofNat']
  omega

theorem decodeOidLoop_septets (rest : List UInt8) (first : Bool) (uctx : σ) {ds : List ℕ}
    (hds : ∀ d ∈ ds, d < 128) (hne : ds ≠ []) (hn : n < 128 ^ m) (hm : m + ds.length ≤ 9) :
    decodeOidLoop func (septets ds ++ rest) first (UInt64.ofNat n) m uctx =
      subidDone func rest first (UInt64.ofNat (ds.foldl (fun acc d => acc * 128 + d) n)) uctx := by
  induction ds generalizing n m with
  | nil => exact absurd rfl hne
  | cons d ds ih =>
    have hd : d < 128 := hds d mem_cons_self
    rw [length_cons] at hm
    rw [septets, cons_append, decodeOidLoop, if_neg (by omega)]
    rw [shift_in_septet hn (by omega) hd, foldl_cons]
    by_cases hlast : ds = []
    · rw [if_neg fun h => (septet_more hd ds).mp h hlast, hlast]
      rfl
    have hmore : septets ds ++ rest ≠ [] := by
      obtain ⟨e, es, rfl⟩ := exists_cons_of_ne_nil hlast
      exact cons_ne_nil _ _
    rw [if_pos ((septet_more hd ds).mpr hlast), if_neg hmore]
    refine ih (fun d hd => hds d (mem_cons_of_mem _ hd)) hlast ?_ (by omega)
    rw [pow_succ]
    omega

theorem decodeOidLoop_subid (rest : List UInt8) (first : Bool) (uctx : σ) (hn : n < 2 ^ 63) :
    decodeOidLoop func (subidBytes n ++ rest) first 0 0 uctx =
      subidDone func rest first (UInt64.ofNat n) uctx := by
  have hlt : n < 128 ^ (8 + 1) := hn.trans_le (by norm_num)
  have hvalue : (subidDigits n).foldl (fun acc d => acc * 128 + d) 0 = n :=
    digitsValue_digitsOf (hn.trans (by norm_num))
  have hread := decodeOidLoop_septets func rest first uctx (n := 0) (m := 0)
    (fun _ => lt_of_mem_subidDigits (n := n)) (digitsOf_ne_nil (by decide)) (by decide)
    (by rw [Nat.zero_add]; exact length_digitsOf_le_of_lt 10 hlt)
  rw [hvalue] at hread
  exact hread

theorem printDecimal_ne_nil (n : ℕ) : printDecimal n ≠ [] := by
  obtain ⟨d, ds, -, htext⟩ := printDecimal_cons n
  rw [htext]
  exact cons_ne_nil _ _

theorem subidBytes_ne_nil (n : ℕ) : subidBytes n ≠ [] := by
  obtain ⟨d, ds, hds⟩ := exists_cons_of_ne_nil
    (digitsOf_ne_nil (b := 128) (n := n) (by decide : 0 < 10))
  rw [subidBytes, subidDigits, hds]
  exact cons_ne_nil _ _

theorem toNat_ofNat_of_lt (h : n < 2 ^ 62) : (UInt64.ofNat n).toNat = n := by
  rw [UInt64.toNat_ofNat']
  omega

theorem frDerDecodeOidToStr_dot {c : ℕ} (hc : c < 2 ^ 62) (ctx : OidToStrCtx) (isLast : Bool)
    (hne : ctx.oidBuff ≠ []) (hroom : (ctx.oidBuff ++ dotted [c]).length ≤ oidBuffRoom) :
    frDerDecodeOidToStr (UInt64.ofNat c) ctx isLast =
      .ok { oidBuff := ctx.oidBuff ++ dotted [c],
            parentList :=
              if isLast then ctx.parentList ++ [ctx.oidBuff ++ dotted [c]] else ctx.parentList } := by
  have hdot : dotted [c] = 0x2e :: printDecimal c := append_nil _
  rw [hdot] at hroom ⊢
  rw [frDerDecodeOidToStr, toNat_ofNat_of_lt hc, if_neg hne]
  exact if_pos hroom

theorem dotted_eq_append (c : ℕ) (cs : List ℕ) : dotted (c :: cs) = dotted [c] ++ dotted cs := by
  rw [dotted, flatMap_cons, dotted, flatMap_cons, flatMap_nil, append_nil]
  rfl

theorem decodeOidLoop_components {cs : List ℕ} (hsmall : ∀ c ∈ cs, c < 2 ^ 62) (hcs : cs ≠ [])
    (ctx : OidToStrCtx) (hne : ctx.oidBuff ≠ [])
    (hroom : (ctx.oidBuff ++ dotted cs).length ≤ oidBuffRoom) :
    decodeOidLoop frDerDecodeOidToStr (cs.flatMap subidBytes) false 0 0 ctx =
      .ok { oidBuff := ctx.oidBuff ++ dotted cs,
            parentList := ctx.parentList ++ [ctx.oidBuff ++ dotted cs] } := by
  induction cs generalizing ctx with
  | nil => exact absurd rfl hcs
  | cons c cs ih =>
    have hc : c < 2 ^ 62 := hsmall c mem_cons_self
    have hsplit := dotted_eq_append c cs
    have hfirst : (ctx.oidBuff ++ dotted [c]).length ≤ oidBuffRoom := by
      rw [hsplit, ← append_assoc, length_append] at hroom
      omega
    rw [flatMap_cons, decodeOidLoop_subid _ _ _ _ (hc.trans (by norm_num)), subidDone,
      if_neg (by decide), frDerDecodeOidToStr_dot hc _ _ hne hfirst]
    by_cases hlast : cs = []
    · subst hlast
      rfl
    have hmore : cs.flatMap subidBytes ≠ [] := by
      obtain ⟨e, es, rfl⟩ := exists_cons_of_ne_nil hlast
      rw [flatMap_cons]
      exact append_ne_nil_of_left_ne_nil (subidBytes_ne_nil e) _
    rw [decide_eq_false hmore]
    rw [hsplit, ← append_assoc] at hroom ⊢
    exact ih (fun d hd => hsmall d (mem_cons_of_mem _ hd)) hlast _
      (append_ne_nil_of_left_ne_nil hne _) hroom

end Decoding

section Oids

/-- An object identifier of three components or more. -/
structure Oid where
  x : ℕ
  y : ℕ
  rest : List ℕ
  x_le : x ≤ 2
  y_lt : x < 2 → y < 40
  small : ∀ c ∈ x :: y :: rest, c < 2 ^ 62
  three : rest ≠ []

namespace Oid

def text (o : Oid) : List UInt8 := printDecimal o.x ++ dotted (o.y :: o.rest)

/-- The first two components are one subidentifier. -/
def subids (o : Oid) : List ℕ := (40 * o.x + o.y) :: o.rest

/-- Each subidentifier is written as its base-128 digits, without zeros at the beginning and with
the continuation bit on all but the last. -/
def bytes (o : Oid) : List UInt8 := o.subids.flatMap subidBytes

/-- What `fr_der_encode_oid` writes while it is within the string. -/
def written (o : Oid) : List UInt8 := o.subids.flatMap writtenBytes

def NoZeroDigit (o : Oid) : Prop := ∀ n ∈ o.subids, ∀ d ∈ subidDigits n, d ≠ 0

instance (o : Oid) : Decidable o.NoZeroDigit :=
  inferInstanceAs (Decidable (∀ n ∈ o.subids, ∀ d ∈ subidDigits n, d ≠ 0))

theorem y_small (o : Oid) : o.y < 2 ^ 62 := o.small _ (mem_cons_of_mem _ mem_cons_self)

theorem rest_small (o : Oid) : ∀ c ∈ o.rest, c < 2 ^ 62 := fun c hc =>
  o.small c (mem_cons_of_mem _ (mem_cons_of_mem _ hc))

theorem first_lt (o : Oid) : 40 * o.x + o.y < 2 ^ 63 := by
  have hx := o.x_le
  have hy := o.y_small
  omega

theorem unpack (o : Oid) :
    (if UInt64.ofNat (40 * o.x + o.y) < 40 then (0 : UInt64)
      else if UInt64.ofNat (40 * o.x + o.y) < 80 then 1 else 2) = UInt64.ofNat o.x ∧
    (if UInt64.ofNat (40 * o.x + o.y) < 40 then UInt64.ofNat (40 * o.x + o.y)
      else if UInt64.ofNat (40 * o.x + o.y) < 80 then UInt64.ofNat (40 * o.x + o.y) - 40
      else UInt64.ofNat (40 * o.x + o.y) - 80) = UInt64.ofNat o.y := by
  have hx := o.x_le
  have hy := o.y_lt
  have hsmall := o.y_small
  have htoNat : (UInt64.ofNat (40 * o.x + o.y)).toNat = 40 * o.x + o.y := by
    rw [UInt64.toNat_ofNat']
    omega
  have h40 : UInt64.ofNat (40 * o.x + o.y) < 40 ↔ o.x = 0 := by
    rw [UInt64.lt_iff_toNat_lt, htoNat]
    change _ < 40 ↔ _
    omega
  have h80 : UInt64.ofNat (40 * o.x + o.y) < 80 ↔ o.x < 2 := by
    rw [UInt64.lt_iff_toNat_lt, htoNat]
    change _ < 80 ↔ _
    omega
  simp only [h40, h80]
  have hsub : ∀ k : ℕ, 40 * o.x = k →
      UInt64.ofNat (40 * o.x + o.y) - UInt64.ofNat k = UInt64.ofNat o.y := by
    intro k heq
    rw [heq, UInt64.ofNat_add, UInt64.add_comm, UInt64.add_sub_cancel]
  obtain hzero | hone | htwo : o.x = 0 ∨ o.x = 1 ∨ o.x = 2 := by omega
  · rw [if_pos hzero, if_pos hzero, hzero]
    exact ⟨rfl, by rw [Nat.mul_zero, Nat.zero_add]⟩
  · have hnot : ¬o.x = 0 := by omega
    have hlow : o.x < 2 := by omega
    rw [if_neg hnot, if_neg hnot, if_pos hlow, if_pos hlow]
    exact ⟨by rw [hone]; rfl, hsub 40 (by omega)⟩
  · have hnot : ¬o.x = 0 := by omega
    have hhigh : ¬o.x < 2 := by omega
    rw [if_neg hnot, if_neg hnot, if_neg hhigh, if_neg hhigh]
    exact ⟨by rw [htwo]; rfl, hsub 80 (by omega)⟩

/-- The bytes of an object identifier are decoded to its string. -/
theorem decode_bytes (o : Oid) (hfits : o.text.length ≤ oidBuffRoom) :
    frDerDecodeOidWrapper o.bytes = .ok [o.text] := by
  have hrest : o.rest.flatMap subidBytes ≠ [] := by
    obtain ⟨e, es, he⟩ := exists_cons_of_ne_nil o.three
    rw [he, flatMap_cons]
    exact append_ne_nil_of_left_ne_nil (subidBytes_ne_nil e) _
  have hbytes : o.bytes = subidBytes (40 * o.x + o.y) ++ o.rest.flatMap subidBytes := by
    rw [bytes, subids, flatMap_cons]
  have hne : o.bytes ≠ [] := by
    rw [hbytes]
    exact append_ne_nil_of_left_ne_nil (subidBytes_ne_nil _) _
  have htext : o.text = printDecimal o.x ++ dotted [o.y] ++ dotted o.rest := by
    rw [text, dotted_eq_append, append_assoc]
  have hx : o.x < 2 ^ 62 := o.small _ mem_cons_self
  -- the text as it grows
  have hfits' := hfits
  rw [htext, length_append, length_append] at hfits'
  have hfirst : frDerDecodeOidToStr (UInt64.ofNat o.x) { oidBuff := [], parentList := [] } false =
      .ok { oidBuff := printDecimal o.x, parentList := [] } := by
    rw [frDerDecodeOidToStr, toNat_ofNat_of_lt hx, if_pos rfl]
    exact if_pos (by omega)
  have htwo : (printDecimal o.x ++ dotted [o.y]).length ≤ oidBuffRoom := by
    rw [length_append]
    omega
  have hsecond := frDerDecodeOidToStr_dot o.y_small
    { oidBuff := printDecimal o.x, parentList := [] } false (printDecimal_ne_nil o.x) htwo
  have hothers := decodeOidLoop_components o.rest_small o.three
    { oidBuff := printDecimal o.x ++ dotted [o.y], parentList := [] }
    (append_ne_nil_of_left_ne_nil (printDecimal_ne_nil o.x) _) (by rwa [← htext])
  have hloop : frDerDecodeOid frDerDecodeOidToStr o.bytes { oidBuff := [], parentList := [] } =
      .ok { oidBuff := o.text, parentList := [o.text] } := by
    rw [frDerDecodeOid, hbytes, decodeOidLoop_subid _ _ _ _ o.first_lt, subidDone, if_pos rfl,
      o.unpack.1, o.unpack.2, decide_eq_false hrest, hfirst]
    refine (congrArg (Except.bind · _) hsecond).trans ?_
    rw [htext]
    exact hothers
  rw [frDerDecodeOidWrapper, hloop]
  exact if_neg hne

theorem encode_first (room : ℕ) (o : Oid) :
    frDerEncodeOidFromValue room (UInt64.ofNat o.x) { out := [], component := 0, count := 0 } =
      .ok { out := [], component := UInt64.ofNat o.x, count := 1 } := by
  have hvalid : UInt64.ofNat o.x = 0 ∨ UInt64.ofNat o.x = 1 ∨ UInt64.ofNat o.x = 2 := by
    have hx := o.x_le
    obtain h | h | h : o.x = 0 ∨ o.x = 1 ∨ o.x = 2 := by omega
    · exact .inl (by rw [h]; rfl)
    · exact .inr (.inl (by rw [h]; rfl))
    · exact .inr (.inr (by rw [h]; rfl))
  rw [frDerEncodeOidFromValue, if_pos rfl, if_neg (not_not.mpr hvalid)]

theorem encode_second (room : ℕ) (o : Oid) :
    frDerEncodeOidFromValue room (UInt64.ofNat o.y)
        { out := [], component := UInt64.ofNat o.x, count := 1 } =
      (writeAll room [] (writtenBytes (40 * o.x + o.y))).bind fun out =>
        .ok { out := out, component := UInt64.ofNat o.x, count := 2 } := by
  have hx : (UInt64.ofNat o.x).toNat = o.x := toNat_ofNat_of_lt (o.small _ mem_cons_self)
  have hy : (UInt64.ofNat o.y).toNat = o.y := toNat_ofNat_of_lt o.y_small
  have hvalid : ¬(UInt64.ofNat o.x < 2 ∧ UInt64.ofNat o.y > 40) := by
    rintro ⟨hlow, hhigh⟩
    have hlow' : o.x < 2 := by rw [← hx]; exact UInt64.lt_iff_toNat_lt.mp hlow
    have hhigh' : 40 < o.y := by rw [← hy]; exact UInt64.lt_iff_toNat_lt.mp hhigh
    have := o.y_lt hlow'
    omega
  have hpack : UInt64.ofNat o.x * 40 + UInt64.ofNat o.y = UInt64.ofNat (40 * o.x + o.y) := by
    rw [UInt64.ofNat_add, UInt64.ofNat_mul, UInt64.mul_comm]
    rfl
  have hlt := o.first_lt
  have hsub : (UInt64.ofNat (40 * o.x + o.y)).toNat = 40 * o.x + o.y := by
    rw [UInt64.toNat_ofNat']
    omega
  rw [frDerEncodeOidFromValue, if_neg Nat.one_ne_zero, if_neg fun h => hvalid h.2, if_pos rfl]
  dsimp only
  rw [hpack, encodeDigits_digitShifts _ (Nat.zero_le room), hsub]

theorem length_le_dotted (cs : List ℕ) : cs.length ≤ (dotted cs).length := by
  induction cs with
  | nil => exact Nat.zero_le _
  | cons c cs ih =>
    rw [dotted_cons, length_cons, length_cons, length_append]
    omega

theorem encode_text (room : ℕ) (o : Oid) (behind : List UInt8) :
    ∃ fuel, behind.length < fuel ∧
      encodeOidLoop room ((o.text ++ 0 :: behind).length + 1) (o.text ++ 0 :: behind)
          { out := [], component := 0, count := 0 } =
        (writeAll room [] o.written).bind fun out =>
          encodeOidLoop room fuel behind
            { out := out, component := UInt64.ofNat o.x, count := o.rest.length + 2 } := by
  obtain ⟨z, zs, hrest⟩ := exists_cons_of_ne_nil o.three
  have hlen : (o.text ++ 0 :: behind).length =
      (printDecimal o.x).length + (dotted (o.y :: o.rest)).length + (behind.length + 1) := by
    rw [text, length_append, length_append, length_cons]
  have hdotted := length_le_dotted (o.y :: o.rest)
  rw [hrest, length_cons, length_cons] at hdotted
  rw [hrest] at hlen
  obtain ⟨fuel, hfuel⟩ : ∃ fuel, (o.text ++ 0 :: behind).length + 1 = fuel + zs.length + 1 + 1 + 1 :=
    ⟨(o.text ++ 0 :: behind).length - zs.length - 2, by omega⟩
  refine ⟨fuel, by omega, ?_⟩
  have htext : o.text ++ 0 :: behind =
      printDecimal o.x ++ 0x2e :: (printDecimal o.y ++ 0x2e ::
        (printDecimal z ++ (dotted zs ++ 0 :: behind))) := by
    rw [text, hrest, dotted_cons, dotted_cons]
    simp
  have hwritten : o.written =
      writtenBytes (40 * o.x + o.y) ++ (z :: zs).flatMap writtenBytes := by
    rw [written, subids, flatMap_cons, hrest]
  have hsmall : ∀ c ∈ z :: zs, c < 2 ^ 62 := by
    rw [← hrest]
    exact o.rest_small
  rw [hfuel, htext, encodeOidLoop_component _ (o.small _ mem_cons_self) (.inl rfl), encode_first]
  change encodeOidLoop room _ _ _ = _
  rw [encodeOidLoop_component _ o.y_small (.inl rfl), encode_second, hwritten, writeAll_append,
    except_bind_assoc, except_bind_assoc]
  refine writeAll_bind_congr fun out hout => ?_
  refine (encodeOidLoop_components fuel behind zs z hsmall (Nat.le_refl 2) hout).trans ?_
  have hcount : 2 + zs.length + 1 = o.rest.length + 2 := by
    rw [hrest, length_cons]
    omega
  rw [hcount]

/-- The encoder writes the bytes of the object identifier, and they are decoded to its string. -/
def RoundTrips (room : ℕ) (behind : List UInt8) (o : Oid) : Prop :=
  frDerEncodeOid room (o.text ++ 0 :: behind) = .ok o.bytes ∧
    frDerDecodeOidWrapper o.bytes = .ok [o.text]

variable {o : Oid} {room : ℕ} {behind : List UInt8}

theorem written_eq_bytes (h : o.NoZeroDigit) : o.written = o.bytes := by
  rw [written, bytes]
  exact flatMap_congr fun n hn => nonzeroSeptets_eq (h n hn)

theorem noZeroDigit_of_bytes (h : ∀ b ∈ o.bytes, b &&& 0x7f ≠ 0) : o.NoZeroDigit := by
  intro n hn
  refine ne_zero_of_septets (fun _ => lt_of_mem_subidDigits) fun b hb => ?_
  exact h b (mem_flatMap.mpr ⟨n, hn, hb⟩)

theorem and_ne_zero_of_mem_written {b : UInt8} (h : b ∈ o.written) : b &&& 0x7f ≠ 0 := by
  obtain ⟨n, -, hb⟩ := mem_flatMap.mp h
  exact and_ne_zero_of_mem_writtenBytes hb

/-- If the encoder writes the bytes of the object identifier, it leaves out no digit and reads
nothing behind the string. -/
theorem noZeroDigit_of_encode (h : frDerEncodeOid room (o.text ++ 0 :: behind) = .ok o.bytes) :
    o.NoZeroDigit ∧ ReadsNothing behind := by
  obtain ⟨fuel, hfuel, htext⟩ := o.encode_text room behind
  rw [frDerEncodeOid, htext, writeAll] at h
  split at h
  · next hle =>
    rw [nil_append] at hle h
    dsimp only [Except.bind] at h
    cases hloop : encodeOidLoop room fuel behind
        { out := o.written, component := UInt64.ofNat o.x, count := o.rest.length + 2 } with
    | error e =>
      rw [hloop] at h
      cases h
    | ok s =>
      obtain ⟨extra, hout, hextra, hnothing⟩ := encodeOidLoop_ok (Nat.le_add_left 2 _) hle hloop
      rw [hloop] at h
      dsimp only at h
      split at h
      · cases h
      have hbytes : o.bytes = o.written ++ extra := by
        rw [← hout]
        exact (Except.ok.inj h).symm
      have hnozero : o.NoZeroDigit := by
        refine noZeroDigit_of_bytes fun b hb => ?_
        rw [hbytes] at hb
        rcases mem_append.mp hb with hb | hb
        · exact and_ne_zero_of_mem_written hb
        · exact hextra b hb
      refine ⟨hnozero, hnothing hfuel ?_⟩
      rw [written_eq_bytes hnozero] at hbytes
      exact self_eq_append_right.mp hbytes
  · cases h

theorem encode_of_noZeroDigit (hroom : o.bytes.length ≤ room) (hnozero : o.NoZeroDigit)
    (hbehind : ReadsNothing behind) :
    frDerEncodeOid room (o.text ++ 0 :: behind) = .ok o.bytes := by
  obtain ⟨fuel, -, htext⟩ := o.encode_text room behind
  obtain ⟨n, hn, hloop⟩ := encodeOidLoop_readsNothing room hbehind fuel
    (s := { out := o.bytes, component := UInt64.ofNat o.x, count := o.rest.length + 2 })
    (Nat.le_add_left 2 _) hroom
  have hpos : 0 < o.rest.length := length_pos_iff.mpr o.three
  have hcount : ¬n ≤ 2 := by
    dsimp only at hn
    omega
  rw [frDerEncodeOid, htext, written_eq_bytes hnozero, writeAll, nil_append, if_pos hroom]
  dsimp only [Except.bind]
  rw [hloop]
  exact if_neg hcount

end Oid

/-- An object identifier is encoded as it should be and decoded to the same string if and only if
no base-128 digit of a subidentifier is zero and what is behind the string in memory reads as
nothing. Different strings of this kind have different encodings. -/
theorem frDerEncodeOid_roundTrips_iff (room : ℕ) (behind : List UInt8) (o : Oid)
    (hroom : o.bytes.length ≤ room) (hfits : o.text.length ≤ oidBuffRoom) :
    (o.RoundTrips room behind ↔ o.NoZeroDigit ∧ ReadsNothing behind) ∧
      ∀ (behind' : List UInt8) (o' : Oid), o'.bytes.length ≤ room → o'.text.length ≤ oidBuffRoom →
        o.NoZeroDigit ∧ ReadsNothing behind → o'.NoZeroDigit ∧ ReadsNothing behind' →
        o.text ≠ o'.text →
        frDerEncodeOid room (o.text ++ 0 :: behind) ≠ frDerEncodeOid room (o'.text ++ 0 :: behind') := by
  constructor
  · constructor
    · rintro ⟨hencode, -⟩
      exact Oid.noZeroDigit_of_encode hencode
    · rintro ⟨hnozero, hbehind⟩
      exact ⟨Oid.encode_of_noZeroDigit hroom hnozero hbehind, o.decode_bytes hfits⟩
  · intro behind' o' hroom' hfits' h h' htext heq
    rw [Oid.encode_of_noZeroDigit hroom h.1 h.2, Oid.encode_of_noZeroDigit hroom' h'.1 h'.2] at heq
    have hdecode := o.decode_bytes hfits
    rw [Except.ok.inj heq, o'.decode_bytes hfits'] at hdecode
    exact htext (singleton_inj.mp (Except.ok.inj hdecode)).symm

def rsadsi : Oid where
  x := 1
  y := 2
  rest := [840, 113549]
  x_le := by decide
  y_lt := by decide
  small := by decide
  three := by decide

def zeroComponent : Oid where
  x := 1
  y := 2
  rest := [0, 1]
  x_le := by decide
  y_lt := by decide
  small := by decide
  three := by decide

def noZeroComponent : Oid where
  x := 1
  y := 2
  rest := [1]
  x_le := by decide
  y_lt := by decide
  small := by decide
  three := by decide

theorem frDerEncodeOid_rsadsi : rsadsi.RoundTrips 6 [] :=
  ((frDerEncodeOid_roundTrips_iff 6 [] rsadsi (by decide) (by decide)).1).mpr
    ⟨by decide, .stop rfl⟩

/-- The component that is zero is lost: the encoding is that of 1.2.1. -/
theorem frDerEncodeOid_zeroComponent :
    zeroComponent.text ≠ noZeroComponent.text ∧
      frDerEncodeOid 6 (zeroComponent.text ++ [0]) = .ok [0x2a, 0x01] ∧
      frDerEncodeOid 6 (noZeroComponent.text ++ [0]) = .ok [0x2a, 0x01] ∧
      frDerDecodeOidWrapper [0x2a, 0x01] = .ok [noZeroComponent.text] ∧
      ¬zeroComponent.RoundTrips 6 [] := by
  have hencode : frDerEncodeOid 6 (zeroComponent.text ++ [0]) = .ok [0x2a, 0x01] := by decide
  refine ⟨by decide, hencode, by decide, by decide, fun h => ?_⟩
  have hbytes : [0x2a, 0x01] = zeroComponent.bytes := Except.ok.inj (hencode.symm.trans h.1)
  exact absurd hbytes (by decide)

end Oids

end FreeRadius.Der
