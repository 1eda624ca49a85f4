import FreeRadius.Der.Integer

/-!
# DER object identifiers

A subidentifier should be written as its base-128 digits, with the highest bit set in all bytes but
the last. `fr_der_encode_oid_from_value` leaves out every digit that is zero, not just those at the
beginning, and `fr_der_encode_oid` goes on behind the end of the string.
-/

namespace FreeRadius.Der

open Library List

variable {n d : ℕ} {ds : List ℕ} {s : OidState} {start out : List UInt8}
  {b : UInt8} {w room : ℕ} {rest : List UInt8} {α : Type}

section Septets

def septet (d : ℕ) (ds : List ℕ) : UInt8 :=
  if ds = [] then UInt8.ofNat d else 0x80 ||| UInt8.ofNat d

/-- The bytes of base-128 digits: the continuation bit is set in all but the last. -/
def septets : List ℕ → List UInt8
  | [] => []
  | d :: ds => septet d ds :: septets ds

/-- The bytes of the digits that are not zero. -/
def nonzeroSeptets : List ℕ → List UInt8
  | [] => []
  | d :: ds => if d = 0 then nonzeroSeptets ds else septet d ds :: nonzeroSeptets ds

theorem septet_and (hd : d < 128) (ds : List ℕ) : septet d ds &&& 0x7f = UInt8.ofNat d := by
  have hall : ∀ d : Fin 128, UInt8.ofNat d &&& 0x7f = UInt8.ofNat d ∧
      (0x80 ||| UInt8.ofNat d) &&& 0x7f = UInt8.ofNat d := by decide
  rw [septet]
  split
  · exact (hall ⟨d, hd⟩).1
  · exact (hall ⟨d, hd⟩).2

theorem ofNat_eq_zero (hd : d < 128) : UInt8.ofNat d = 0 ↔ d = 0 := by
  have hall : ∀ d : Fin 128, UInt8.ofNat d = 0 ↔ d.val = 0 := by decide
  exact hall ⟨d, hd⟩

theorem nonzeroSeptets_eq (h : ∀ d ∈ ds, d ≠ 0) : nonzeroSeptets ds = septets ds := by
  induction ds with
  | nil => rfl
  | cons d ds ih =>
    rw [nonzeroSeptets, if_neg (h d mem_cons_self), septets,
      ih fun d hd => h d (mem_cons_of_mem _ hd)]

theorem nonzeroSeptets_replicate (k : ℕ) (ds : List ℕ) :
    nonzeroSeptets (replicate k 0 ++ ds) = nonzeroSeptets ds := by
  induction k with
  | zero => rfl
  | succ k ih => rw [replicate_succ, cons_append, nonzeroSeptets, if_pos rfl, ih]

theorem and_ne_zero_of_mem_nonzeroSeptets (hds : ∀ d ∈ ds, d < 128) (h : b ∈ nonzeroSeptets ds) :
    b &&& 0x7f ≠ 0 := by
  induction ds with
  | nil => cases h
  | cons d ds ih =>
    have hd : d < 128 := hds d mem_cons_self
    have ih := ih fun d hd => hds d (mem_cons_of_mem _ hd)
    rw [nonzeroSeptets] at h
    split at h
    · exact ih h
    next hne =>
    rcases mem_cons.mp h with rfl | h
    · rwa [septet_and hd, ne_eq, ofNat_eq_zero hd]
    · exact ih h

theorem ne_zero_of_septets (hds : ∀ d ∈ ds, d < 128)
    (h : ∀ b ∈ septets ds, b &&& 0x7f ≠ 0) : ∀ d ∈ ds, d ≠ 0 := by
  induction ds with
  | nil => nofun
  | cons d ds ih =>
    have hd : d < 128 := hds d mem_cons_self
    have hfirst := h _ mem_cons_self
    rw [septet_and hd, ne_eq, ofNat_eq_zero hd] at hfirst
    intro e he
    rcases mem_cons.mp he with rfl | he
    · exact hfirst
    · exact ih (fun d hd => hds d (mem_cons_of_mem _ hd))
        (fun b hb => h b (mem_cons_of_mem _ hb)) e he

end Septets

section Subidentifiers

/-- The base-128 digits of a subidentifier, without zeros at the beginning. -/
def subidDigits (n : ℕ) : List ℕ := digitsOf 128 10 n

def subidBytes (n : ℕ) : List UInt8 := septets (subidDigits n)

def writtenBytes (n : ℕ) : List UInt8 := nonzeroSeptets (subidDigits n)

theorem lt_of_mem_subidDigits (h : d ∈ subidDigits n) : d < 128 :=
  lt_of_mem_digitsOf (by decide) h

/-- The positions of the lowest digits. -/
def shiftsBelow : ℕ → List UInt64
  | 0 => []
  | w + 1 => UInt64.ofNat (7 * w) :: shiftsBelow w

theorem digitShifts_eq : digitShifts = shiftsBelow 10 := by decide

theorem part_eq (oid : UInt64) (hw : w < 10) :
    (oid >>> UInt64.ofNat (7 * w) &&& 0x7f).toUInt8 = UInt8.ofNat (oid.toNat / 128 ^ w % 128) := by
  have hshift : (UInt64.ofNat (7 * w)).toNat = 7 * w := by
    rw [UInt64.toNat_ofNat']
    omega
  have hmod : 7 * w % 64 = 7 * w := by omega
  apply UInt8.toNat.inj
  rw [UInt64.toNat_toUInt8, UInt64.toNat_and, UInt64.toNat_shiftRight, hshift, hmod,
    Nat.shiftRight_eq_div_pow, pow_mul]
  have hand : ∀ n : ℕ, n &&& (0x7f : UInt64).toNat = n % 128 := fun n =>
    Nat.and_two_pow_sub_one_eq_mod n 7
  have hbase : (2 : ℕ) ^ 7 = 128 := rfl
  rw [hand, UInt8.toNat_ofNat', hbase]

theorem septet_shift (hw : w < 10) (d : ℕ) (hds : ds = [] ↔ w = 0) :
    ((if UInt64.ofNat (7 * w) > 0 then (1 : UInt8) else 0) <<< 7 ||| UInt8.ofNat d) = septet d ds := by
  have hpos : ∀ w : Fin 10, UInt64.ofNat (7 * w.val) > 0 ↔ w.val ≠ 0 := by decide
  rw [septet]
  by_cases hzero : w = 0
  · rw [if_neg fun h => (hpos ⟨w, hw⟩).mp h hzero, if_pos (hds.mpr hzero)]
    exact UInt8.zero_or
  · rw [if_pos ((hpos ⟨w, hw⟩).mpr hzero), if_neg fun h => hzero (hds.mp h)]
    rfl

/-- The loop over the digits writes those that are not zero. -/
theorem encodeDigits_eq (oid : UInt64) (hw : w ≤ 10) (hroom : out.length ≤ room) :
    encodeDigits room oid (shiftsBelow w) out =
      writeAll room out (nonzeroSeptets (fixedDigits 128 w oid.toNat)) := by
  induction w generalizing out with
  | zero => exact (writeAll_nil hroom).symm
  | succ w ih =>
    have hdigit : oid.toNat / 128 ^ w % 128 < 128 := Nat.mod_lt _ (by decide)
    have hends : fixedDigits 128 w oid.toNat = [] ↔ w = 0 := by
      cases w with
      | zero => exact ⟨fun _ => rfl, fun _ => rfl⟩
      | succ w => exact ⟨nofun, nofun⟩
    rw [shiftsBelow, encodeDigits, part_eq oid hw, fixedDigits, nonzeroSeptets]
    dsimp only
    by_cases hzero : oid.toNat / 128 ^ w % 128 = 0
    · rw [if_pos hzero, if_pos ((ofNat_eq_zero hdigit).mpr hzero)]
      exact ih (by omega) hroom
    · rw [if_neg hzero, if_neg fun h => hzero ((ofNat_eq_zero hdigit).mp h),
        septet_shift hw _ hends]
      exact dbuffIn_bind_writeAll fun hle => ih (by omega) hle

theorem encodeDigits_digitShifts (oid : UInt64) (hroom : out.length ≤ room) :
    encodeDigits room oid digitShifts out = writeAll room out (writtenBytes oid.toNat) := by
  have hlt : oid.toNat < 128 ^ 10 := oid.toNat_lt.trans (by norm_num)
  rw [digitShifts_eq, encodeDigits_eq oid (Nat.le_refl 10) hroom, fixedDigits_eq hlt,
    nonzeroSeptets_replicate, writtenBytes, subidDigits]

theorem and_ne_zero_of_mem_writtenBytes (h : b ∈ writtenBytes n) : b &&& 0x7f ≠ 0 :=
  and_ne_zero_of_mem_nonzeroSeptets (fun _ => lt_of_mem_subidDigits) h

theorem writtenBytes_eq_nil (hn : n < 2 ^ 64) : writtenBytes n = [] ↔ n = 0 := by
  constructor
  · intro h
    by_contra hne
    have hlt : n < 128 ^ 10 := hn.trans (by norm_num)
    obtain ⟨d, ds, hds⟩ := exists_cons_of_ne_nil (digitsOf_ne_nil (b := 128) (n := n)
      (by decide : 0 < 10))
    have hfirst := head_digitsOf (by decide) hlt hne d ds hds
    rw [writtenBytes, subidDigits, hds, nonzeroSeptets, if_neg hfirst] at h
    cases h
  · rintro rfl
    decide

end Subidentifiers

section Texts

theorem decimal_digit (hd : d < 10) :
    isDigit (UInt8.ofNat d + 0x30) = true ∧ isSpace (UInt8.ofNat d + 0x30) = false ∧
      UInt8.ofNat d + 0x30 ≠ 0x2d ∧ UInt8.ofNat d + 0x30 ≠ 0x2b ∧ UInt8.ofNat d + 0x30 ≠ 0 ∧
      (UInt8.ofNat d + 0x30 - 0x30).toNat = d := by
  have hall : ∀ d : Fin 10,
      isDigit (UInt8.ofNat d + 0x30) = true ∧ isSpace (UInt8.ofNat d + 0x30) = false ∧
      UInt8.ofNat d + 0x30 ≠ 0x2d ∧ UInt8.ofNat d + 0x30 ≠ 0x2b ∧ UInt8.ofNat d + 0x30 ≠ 0 ∧
      (UInt8.ofNat d + 0x30 - 0x30).toNat = d := by decide
  exact hall ⟨d, hd⟩

theorem isDigit_of_mem_printDecimal {c : UInt8} (h : c ∈ printDecimal n) : isDigit c = true := by
  obtain ⟨d, hd, rfl⟩ := mem_map.mp h
  exact (decimal_digit (lt_of_mem_digitsOf (by decide) hd)).1

theorem printDecimal_cons (n : ℕ) :
    ∃ d ds, d < 10 ∧ printDecimal n = (UInt8.ofNat d + 0x30) :: ds := by
  obtain ⟨d, ds, hds⟩ := exists_cons_of_ne_nil
    (digitsOf_ne_nil (b := 10) (n := n) (by decide : 0 < 20))
  refine ⟨d, ds.map fun d => UInt8.ofNat d + 0x30, ?_, ?_⟩
  · exact lt_of_mem_digitsOf (b := 10) (by decide) (hds ▸ mem_cons_self)
  · rw [printDecimal, hds, map_cons]

theorem decimalValue_printDecimal (hn : n < 2 ^ 62) : decimalValue (printDecimal n) = n := by
  have hmap : (printDecimal n).map (fun c => (c - 0x30).toNat) = digitsOf 10 20 n := by
    rw [printDecimal, map_map]
    refine (map_congr_left fun d hd => ?_).trans (map_id' _)
    exact (decimal_digit (lt_of_mem_digitsOf (by decide) hd)).2.2.2.2.2
  rw [decimalValue, hmap, digitsValue_digitsOf (hn.trans (by norm_num))]

theorem takeWhile_digits (text : List UInt8) (htext : ∀ c ∈ text, isDigit c = true)
    (hrest : isDigit (char rest) = false) : (text ++ rest).takeWhile isDigit = text ∧
      (text ++ rest).dropWhile isDigit = rest := by
  have hnone : rest.takeWhile isDigit = [] ∧ rest.dropWhile isDigit = rest := by
    cases rest with
    | nil => exact ⟨rfl, rfl⟩
    | cons c rest =>
      have hc : ¬isDigit c = true := by rw [Bool.not_eq_true]; exact hrest
      exact ⟨takeWhile_cons_of_neg hc, dropWhile_cons_of_neg hc⟩
  rw [takeWhile_append_of_pos htext, dropWhile_append_of_pos htext, hnone.1, hnone.2, append_nil]
  exact ⟨rfl, rfl⟩

theorem strtoull_printDecimal (hn : n < 2 ^ 62) (hrest : isDigit (char rest) = false) :
    strtoull (printDecimal n ++ rest) = (UInt64.ofNat n, rest) := by
  obtain ⟨d, ds, hd, htext⟩ := printDecimal_cons n
  obtain ⟨-, hspace, hminus, hplus, -, -⟩ := decimal_digit hd
  obtain ⟨htake, hdrop⟩ := takeWhile_digits (printDecimal n)
    (fun c => isDigit_of_mem_printDecimal) hrest
  have hstart : (printDecimal n ++ rest).dropWhile isSpace = printDecimal n ++ rest := by
    rw [htext, cons_append, dropWhile_cons_of_neg (by rw [hspace]; decide)]
  have hchar : char (printDecimal n ++ rest) = UInt8.ofNat d + 0x30 := by rw [htext]; rfl
  have hsign : ¬(UInt8.ofNat d + 0x30 = 0x2d ∨ UInt8.ofNat d + 0x30 = 0x2b) := by
    rintro (h | h)
    · exact hminus h
    · exact hplus h
  have hne : printDecimal n ≠ [] := by rw [htext]; exact cons_ne_nil _ _
  rw [strtoull]
  simp only [hstart, hchar, if_neg hsign, htake, hdrop, if_neg hne, decimalValue_printDecimal hn,
    if_pos (hn.trans (by norm_num : 2 ^ 62 < 2 ^ 64)), beq_eq_false_iff_ne.mpr hminus]
  rfl

end Texts

section Encoding

variable {room : ℕ}

/-- Components behind the first one, with the dots in front of them. -/
def dotted (cs : List ℕ) : List UInt8 := cs.flatMap fun c => 0x2e :: printDecimal c

theorem dotted_cons (c : ℕ) (cs : List ℕ) :
    dotted (c :: cs) = 0x2e :: (printDecimal c ++ dotted cs) := by
  rw [dotted, flatMap_cons, cons_append]
  rfl

theorem writeAll_append (out a b : List UInt8) :
    writeAll room out (a ++ b) = (writeAll room out a).bind fun out => writeAll room out b := by
  unfold writeAll
  by_cases ha : (out ++ a).length ≤ room
  · rw [if_pos ha, ← append_assoc]
    rfl
  have hab : ¬(out ++ (a ++ b)).length ≤ room := by
    simp only [length_append] at ha ⊢
    omega
  rw [if_neg ha, if_neg hab]
  rfl

theorem writeAll_bind_congr {bytes : List UInt8} {f g : List UInt8 → Except DerError α}
    (h : ∀ o : List UInt8, o.length ≤ room → f o = g o) :
    (writeAll room out bytes).bind f = (writeAll room out bytes).bind g := by
  rw [writeAll]
  split
  · next hle => exact h _ hle
  · rfl

theorem except_bind_assoc {ε β γ : Type} (x : Except ε α) (f : α → Except ε β)
    (g : β → Except ε γ) :
    (x.bind f).bind g = x.bind fun a => (f a).bind g := by cases x <;> rfl

theorem frDerEncodeOidFromValue_later (value : UInt64) (hcount : 2 ≤ s.count)
    (hroom : s.out.length ≤ room) :
    frDerEncodeOidFromValue room value s =
      (writeAll room s.out (writtenBytes value.toNat)).bind fun out =>
        .ok { s with out := out, count := s.count + 1 } := by
  have hsecond : s.count ≠ 1 := by omega
  rw [frDerEncodeOidFromValue, if_neg (by omega), if_neg fun h => hsecond h.1, if_neg hsecond]
  dsimp only
  rw [encodeDigits_digitShifts value hroom]

theorem encodeOidLoop_component (fuel : ℕ) {c : ℕ} (hc : c < 2 ^ 62) {sep : UInt8}
    (hsep : sep = 0x2e ∨ sep = 0) (more : List UInt8) (s : OidState) :
    encodeOidLoop room (fuel + 1) (printDecimal c ++ sep :: more) s =
      (frDerEncodeOidFromValue room (UInt64.ofNat c) s).bind fun s =>
        encodeOidLoop room fuel more s := by
  obtain ⟨d, ds, hd, htext⟩ := printDecimal_cons c
  have hstart : char (printDecimal c ++ sep :: more) ≠ 0 := by
    rw [htext]
    exact (decimal_digit hd).2.2.2.2.1
  have hdigit : isDigit (char (sep :: more)) = false := by
    rcases hsep with rfl | rfl <;> rfl
  have hmax : UInt64.ofNat c ≠ UInt64.ofNat (2 ^ 64 - 1) := by
    intro h
    have := congrArg UInt64.toNat h
    rw [UInt64.toNat_ofNat', UInt64.toNat_ofNat'] at this
    omega
  rw [encodeOidLoop, if_neg hstart, strtoull_printDecimal hc hdigit]
  refine if_neg ?_
  rintro (h | ⟨hzero, hdot⟩)
  · exact hmax h
  · exact hsep.elim hdot hzero

/-- The loop over the components behind the second one, up to the end of the string. -/
theorem encodeOidLoop_components (fuel : ℕ) (behind : List UInt8) (cs : List ℕ) (c : ℕ)
    (hsmall : ∀ c' ∈ c :: cs, c' < 2 ^ 62) (hcount : 2 ≤ s.count) (hroom : s.out.length ≤ room) :
    encodeOidLoop room (fuel + cs.length + 1) (printDecimal c ++ (dotted cs ++ 0 :: behind)) s =
      (writeAll room s.out ((c :: cs).flatMap writtenBytes)).bind fun out =>
        encodeOidLoop room fuel behind { s with out := out, count := s.count + cs.length + 1 } := by
  have hc : c < 2 ^ 62 := hsmall c mem_cons_self
  have htoNat : (UInt64.ofNat c).toNat = c := by
    rw [UInt64.toNat_ofNat']
    omega
  induction cs generalizing c s with
  | nil =>
    have hnil : dotted [] ++ 0 :: behind = 0 :: behind := rfl
    rw [hnil, encodeOidLoop_component _ hc (.inr rfl), frDerEncodeOidFromValue_later _ hcount hroom,
      except_bind_assoc, htoNat, flatMap_cons, flatMap_nil, append_nil]
    rfl
  | cons c' cs ih =>
    have hdot : dotted (c' :: cs) ++ 0 :: behind =
        0x2e :: (printDecimal c' ++ (dotted cs ++ 0 :: behind)) := by
      rw [dotted_cons, cons_append, append_assoc]
    have hc' : c' < 2 ^ 62 := hsmall c' (mem_cons_of_mem _ mem_cons_self)
    rw [hdot, encodeOidLoop_component _ hc (.inl rfl), frDerEncodeOidFromValue_later _ hcount hroom,
      except_bind_assoc, htoNat, flatMap_cons, writeAll_append, except_bind_assoc]
    refine writeAll_bind_congr fun out hout => ?_
    have hnext := ih c' (fun d hd => hsmall d (mem_cons_of_mem _ hd))
      (s := { s with out := out, count := s.count + 1 }) (Nat.le_succ_of_le hcount) hout hc'
      (by rw [UInt64.toNat_ofNat']; omega)
    refine hnext.trans ?_
    have hsum : s.count + 1 + cs.length + 1 = s.count + (c' :: cs).length + 1 := by
      rw [length_cons]
      omega
    rw [hsum]

end Encoding

section Behind

variable {room : ℕ}

/-- What is read on behind the string is nothing but components that are zero. -/
inductive ReadsNothing : List UInt8 → Prop
  | stop {start : List UInt8} (h : char start = 0) : ReadsNothing start
  | zero {start : List UInt8} (h : char start ≠ 0) (hvalue : (strtoull start).1 = 0)
      (hend : char (strtoull start).2 = 0 ∨ char (strtoull start).2 = 0x2e)
      (hrest : ReadsNothing (strtoull start).2.tail) : ReadsNothing start

theorem length_strtoull_le (start : List UInt8) : (strtoull start).2.length ≤ start.length := by
  have hspace : (start.dropWhile isSpace).length ≤ start.length := (dropWhile_suffix _).length_le
  have hsign : ∀ mem : List UInt8,
      (if char mem = 0x2d ∨ char mem = 0x2b then mem.tail else mem).length ≤ mem.length := by
    intro mem
    split
    · rw [length_tail]
      omega
    · exact Nat.le_refl _
  have hmem := (hsign (start.dropWhile isSpace)).trans hspace
  rw [strtoull]
  dsimp only
  -- the memory behind the sign
  generalize (if char (start.dropWhile isSpace) = 0x2d ∨ char (start.dropWhile isSpace) = 0x2b then
    (start.dropWhile isSpace).tail else start.dropWhile isSpace) = mem at hmem ⊢
  have hdigits : (mem.dropWhile isDigit).length ≤ mem.length := (dropWhile_suffix _).length_le
  split
  · exact Nat.le_refl _
  · split <;> exact hdigits.trans hmem

theorem length_tail_strtoull_lt (h : char start ≠ 0) :
    (strtoull start).2.tail.length < start.length := by
  have hle := length_strtoull_le start
  have hpos : 0 < start.length := by
    rcases start with _ | ⟨c, start⟩
    · exact absurd rfl h
    · exact Nat.succ_pos _
  rw [length_tail]
  omega

theorem encodeOidLoop_readsNothing (room : ℕ) (h : ReadsNothing start) (fuel : ℕ)
    (hcount : 2 ≤ s.count) (hroom : s.out.length ≤ room) :
    ∃ n, s.count ≤ n ∧ encodeOidLoop room fuel start s = .ok { s with count := n } := by
  induction h generalizing fuel s with
  | stop h =>
    refine ⟨s.count, Nat.le_refl _, ?_⟩
    cases fuel with
    | zero => rfl
    | succ fuel => exact if_pos h
  | @zero start h hvalue hend hrest ih =>
    rcases fuel with _ | fuel
    · exact ⟨s.count, Nat.le_refl _, rfl⟩
    have hok : ¬((strtoull start).1 = UInt64.ofNat (2 ^ 64 - 1) ∨
        char (strtoull start).2 ≠ 0 ∧ char (strtoull start).2 ≠ 0x2e) := by
      rintro (hmax | ⟨hzero, hdot⟩)
      · rw [hvalue] at hmax
        exact absurd hmax (by decide)
      · exact hend.elim hzero hdot
    obtain ⟨n, hn, hloop⟩ := ih fuel (s := { s with count := s.count + 1 })
      (Nat.le_succ_of_le hcount) hroom
    refine ⟨n, Nat.le_of_succ_le hn, ?_⟩
    rw [encodeOidLoop, if_neg h]
    rw [if_neg hok, hvalue, frDerEncodeOidFromValue_later _ hcount hroom]
    have hnone : writtenBytes (0 : UInt64).toNat = [] := by decide
    rw [hnone, writeAll_nil hroom]
    exact hloop

/-- Whatever is read on is written behind what there is, and its bytes have digits that are not
zero. -/
theorem encodeOidLoop_ok {fuel : ℕ} {s' : OidState} (hcount : 2 ≤ s.count)
    (hroom : s.out.length ≤ room) (h : encodeOidLoop room fuel start s = .ok s') :
    ∃ extra, s'.out = s.out ++ extra ∧ (∀ b ∈ extra, b &&& 0x7f ≠ 0) ∧
      (start.length < fuel → extra = [] → ReadsNothing start) := by
  induction fuel generalizing start s with
  | zero =>
    cases h
    exact ⟨[], (append_nil _).symm, nofun, fun hlt => absurd hlt (Nat.not_lt_zero _)⟩
  | succ fuel ih =>
    rw [encodeOidLoop] at h
    dsimp only at h
    split at h
    · next hstop =>
      cases h
      exact ⟨[], (append_nil _).symm, nofun, fun _ _ => .stop hstop⟩
    next hgo =>
    split at h
    · cases h
    next hvalid =>
    rw [frDerEncodeOidFromValue_later _ hcount hroom, writeAll] at h
    split at h
    · next hle =>
      obtain ⟨extra, hout, hextra, hnothing⟩ := ih
        (s := { s with out := s.out ++ writtenBytes (strtoull start).1.toNat, count := s.count + 1 })
        (Nat.le_succ_of_le hcount) hle h
      refine ⟨writtenBytes (strtoull start).1.toNat ++ extra, ?_, ?_, ?_⟩
      · rw [hout, append_assoc]
      · intro b hb
        rcases mem_append.mp hb with hb | hb
        · exact and_ne_zero_of_mem_writtenBytes hb
        · exact hextra b hb
      · intro hlt hnil
        obtain ⟨hwritten, hextra⟩ := append_eq_nil_iff.mp hnil
        have hzero := (writtenBytes_eq_nil (strtoull start).1.toNat_lt).mp hwritten
        have hshort := length_tail_strtoull_lt hgo
        refine .zero hgo (UInt64.toNat.inj hzero) ?_ (hnothing (by omega) hextra)
        by_contra hend
        exact hvalid (.inr (not_or.mp hend))
    · cases h

end Behind

end FreeRadius.Der
