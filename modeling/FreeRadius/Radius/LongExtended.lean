import FreeRadius.Radius.Fragments

/-!
# Long extended attributes

The attributes of RFC 6929 that may be longer than 255 bytes. Attributes of vendors have the
number of the vendor and their own number in front of the value, as a part of the data.
-/

namespace FreeRadius.Radius

open Library List

variable {Da V : Type}

/-- The leaf below an extended attribute: it is the attribute itself, or one of a vendor. -/
inductive ExtendedLeaf (dict : Dict Da) (ext : Da) : Option Da → Da → Prop where
  | plain : ExtendedLeaf dict ext none ext
  | vendor {vendor da : Da} (htype : dict.type ext = .vsa)
    (hvendor : dict.childByNum ext (dict.attr vendor) = some vendor)
    (hpen : dict.attr vendor < 256 ^ 4) (hda : dict.childByNum vendor (dict.attr da) = some da)
    (hnum : dict.attr da < 256) : ExtendedLeaf dict ext (some vendor) da

variable {dict : Dict Da} {ext da : Da}

theorem ExtendedLeaf.eq_of_none (h : ExtendedLeaf dict ext none da) : da = ext := by
  cases h
  rfl

variable {vendor : Da} {ps : List (List UInt8)} {rest : List UInt8}

theorem ExtendedLeaf.type_of_some (h : ExtendedLeaf dict ext (some vendor) da) :
    dict.type ext = .vsa := by
  cases h
  assumption

/-- A long extended attribute and its octets. -/
structure LongExtended (dict : Dict Da) where
  top : Da
  ext : Da
  vendor : Option Da
  da : Da
  value : List UInt8
  num : dict.attr top ∈ [241, 242, 243, 244, 245, 246]
  known : dict.childByNum dict.root (dict.attr top) = some top
  type : dict.type top = .tlv
  long : (dict.flags top).longExtended = true
  concat : (dict.flags top).concat = false
  extKnown : dict.childByNum top (dict.attr ext) = some ext
  extNum : dict.attr ext < 256
  leaf : ExtendedLeaf dict ext vendor da
  octets : OctetsDa dict da value
  size : 1 ≤ value.length ∧ value.length ≤ 4000

namespace LongExtended

variable {dict : Dict Da} (item : LongExtended dict)

def pair : Pair Da V :=
  match item.vendor with
  | none => .group item.top [.leaf item.da (.octets item.value)]
  | some vendor =>
    .group item.top [.group item.ext [.group vendor [.leaf item.da (.octets item.value)]]]

def path : List Da :=
  match item.vendor with
  | none => [item.top]
  | some vendor => [item.top, item.ext, vendor]

/-- What is in front of the value. -/
def evs : List UInt8 :=
  item.vendor.elim [] fun vendor => nboBytes 4 (dict.attr vendor) ++ [UInt8.ofNat (dict.attr item.da)]

def header : List UInt8 :=
  [UInt8.ofNat (dict.attr item.top), 4, UInt8.ofNat (dict.attr item.ext), 0]

/-- The fragments of the attribute. The flag is set in all but the last one. -/
def encoding : List UInt8 := fragments (stamp 4 3 0 item.header) (cut 251 (item.evs ++ item.value))

theorem value_ne_nil : item.value ≠ [] := length_pos_iff.mp item.size.1

theorem pieces : Pieces 251 (item.evs ++ item.value) (cut 251 (item.evs ++ item.value)) :=
  pieces_cut (by decide) (append_ne_nil_of_right_ne_nil _ item.value_ne_nil)

@[simp] theorem length_header : item.header.length = 4 := rfl

section Encode

variable {ep : EncodeParams Da V} {ec : EncodeCtx} {room : ℕ}

theorem length_encoding_eq : item.encoding.length =
    4 * (((item.evs ++ item.value).length + 250) / 251) + (item.evs ++ item.value).length := by
  rw [encoding, length_fragments item.length_header, item.pieces.flatten,
    item.pieces.length_eq (by decide)]

theorem length_encoding : 4 + item.evs.length + item.value.length ≤ item.encoding.length := by
  have hsize := item.size.1
  rw [length_encoding_eq, length_append]
  omega

theorem encodeExtended_eq (hroom : item.encoding.length ≤ room) :
    encodeExtended dict ep ec item.top item.ext item.vendor (.leaf item.da (.octets item.value)) room =
      .ok (item.encoding, ec) := by
  have hsize := item.length_encoding
  have hhdr : [UInt8.ofNat (dict.attr item.top), UInt8.ofNat (3 + [(0 : UInt8)].length),
      UInt8.ofNat (dict.attr item.ext)] ++ [0] ++ item.evs = item.header ++ item.evs := rfl
  have hwrite : write room (item.header ++ item.evs) = .ok (item.header ++ item.evs) :=
    write_of_le (by rw [length_append, length_header]; omega)
  have hvalue : encodeValue dict ep ec (.leaf item.da (.octets item.value))
      (room - (item.header ++ item.evs).length) = .ok (item.value, ec) :=
    item.octets.encodeLeaf item.value_ne_nil (by rw [length_append, length_header]; omega)
  have hevs : (item.vendor.elim [] fun vendor => nboBytes 4 (dict.attr vendor) ++
      [UInt8.ofNat (dict.attr (Pair.leaf item.da (.octets item.value) : Pair Da V).da)]) = item.evs := rfl
  unfold encodeExtended
  simp only [item.long, if_true, hevs, hhdr, hwrite, encodeOk_bind, hvalue, if_neg item.value_ne_nil]
  split
  · next hlong =>
    rw [length_append, length_header] at hlong
    have hfragment : attrFragment (item.header ++ (item.evs ++ item.value))
        (item.evs ++ item.value).length 4 3 0 room = .ok (some item.encoding) :=
      attrFragment_eq (by decide) (by decide) (by decide) (by decide) item.length_header item.pieces
        (by rw [length_append]; omega) hroom
    rw [append_assoc, ← length_append, hfragment]
    rfl
  · next hshort =>
    rw [length_append, length_header] at hshort
    have hone := item.pieces.eq_singleton (by rw [length_append]; omega)
    have hlen : (item.header ++ item.evs).length + item.value.length =
        4 + (item.evs ++ item.value).length := by
      rw [length_append, length_append, length_header, Nat.add_assoc]
    rw [encoding, hone, hlen, append_assoc]
    rfl

variable [DecidableEq Da]

theorem frRadiusEncodePair_eq (hroom : item.encoding.length ≤ room) (vps : List (Pair Da V)) :
    frRadiusEncodePair dict ep ec (item.pair :: vps) room = .ok (item.encoding, ec, vps) := by
  have hext : encodeExtended dict ep ec item.top item.ext item.vendor
      (.leaf item.da (.octets item.value)) room = _ := item.encodeExtended_eq hroom
  have hleaf := item.leaf
  have hnested : encodeExtendedNested dict ep ec item.pair room = .ok (item.encoding, ec) := by
    unfold encodeExtendedNested pair
    cases hvendor : item.vendor with
    | none =>
      rw [hvendor] at hext hleaf
      have htype : ¬dict.type item.da = .vsa := by
        rw [item.octets.type]
        decide
      refine encodeEach_singleton ?_
      rw [← hleaf.eq_of_none] at hext
      simp only [Pair.da, if_neg htype, hext]
    | some vendor =>
      rw [hvendor] at hext hleaf
      refine encodeEach_singleton ?_
      simp only [Pair.da, hleaf.type_of_some, if_true, Pair.children]
      refine encodeEach_singleton ?_
      exact encodeEach_singleton hext
  obtain ⟨children, hpair⟩ : ∃ children, (item.pair : Pair Da V) = .group item.top children := by
    unfold pair
    cases item.vendor <;> exact ⟨_, rfl⟩
  have htag : isTagGroup dict item.top = false := by
    simp [isTagGroup, item.type]
  have hextended : (dict.flags item.top).isExtended = true := by
    rw [Flags.isExtended, item.long, Bool.or_true]
  rw [hpair] at hnested ⊢
  simp only [frRadiusEncodePair, htag, Bool.false_eq_true, if_false, encodeUntagged, item.type,
    hextended, if_true, hnested, encodeOk_bind]
  rfl

end Encode

section Decode

variable [DecidableEq Da] {dp : DecodeParams Da V} {dc : DecodeCtx}
  {rest a : List UInt8} {t e : UInt8}

theorem decodeExtendedVsa_eq {ext da : Da} {value : List UInt8}
    (hleaf : ExtendedLeaf dict ext (some vendor) da) (hoctets : OctetsDa dict da value)
    (hvalue : value ≠ []) (hlen : value.length ≤ 128 * 1024) (depth : ℕ) (s : Lists Da V) :
    decodeExtendedVsa dict (decoders dict dp dc (depth + 1)) ext
        (nboBytes 4 (dict.attr vendor) ++ (UInt8.ofNat (dict.attr da) :: (value ++ rest)))
        (5 + value.length) s =
      (some (5 + value.length), s.nest [ext, vendor] (.leaf da (.octets value))) := by
  cases hleaf with
  | vendor htype hvendor hpen hda hnum =>
    have hpos : 0 < value.length := length_pos_iff.mpr hvalue
    have hbytes : (nboBytes 4 (dict.attr vendor)).length = 4 := length_nboBytes _ _
    have hpen' : nboValue ((nboBytes 4 (dict.attr vendor) ++
        (UInt8.ofNat (dict.attr da) :: (value ++ rest))).take 4) = dict.attr vendor := by
      rw [take_left' hbytes, nboValue_nboBytes hpen]
    have hnum' : (byte (nboBytes 4 (dict.attr vendor) ++
        (UInt8.ofNat (dict.attr da) :: (value ++ rest))) 4).toNat = dict.attr da := by
      rw [byte, getD_eq_getElem?_getD, getElem?_append_right (by omega), hbytes]
      exact UInt8.toNat_ofNat_of_lt' hnum
    have hdrop : (nboBytes 4 (dict.attr vendor) ++
        (UInt8.ofNat (dict.attr da) :: (value ++ rest))).drop 5 = value ++ rest := by
      rw [show 5 = (nboBytes 4 (dict.attr vendor)).length + 1 by rw [hbytes], drop_length_add_append]
      rfl
    have hinner : ∀ t : Lists Da V, (decoders dict dp dc (depth + 1)).value da (value ++ rest) value.length t =
        (some value.length, t.nest [] (.leaf da (.octets value))) := by
      intro t
      exact (decodePairValueStep_leaf _ (by rw [hoctets.type]; rfl) hvalue hlen rest t).trans
        (hoctets.decodeLeafValue t)
    unfold decodeExtendedVsa
    rw [if_neg (by omega)]
    simp only [hpen', hnum', hvendor, hda, hdrop, Option.getD_some, Nat.add_sub_cancel_left,
      inGroup_nest (inGroup_nest hinner)]

theorem decodePairValue_eq (rest : List UInt8) (s : Lists Da V) :
    frRadiusDecodePairValue dict dp dc item.ext (item.evs ++ item.value ++ rest)
        (item.evs ++ item.value).length s =
      (some (item.evs ++ item.value).length,
        s.nest item.path.tail (.leaf item.da (.octets item.value))) := by
  have hvalue := item.value_ne_nil
  have hsize := item.size.2
  have hleaf := item.leaf
  unfold evs path
  cases hvendor : item.vendor with
  | none =>
    rw [hvendor] at hleaf
    rw [← hleaf.eq_of_none, Option.elim_none, nil_append,
      frRadiusDecodePairValue_leaf (by rw [item.octets.type]; rfl) hvalue (by omega)]
    exact item.octets.decodeLeafValue s
  | some vendor =>
    rw [hvendor] at hleaf
    have hlen : (nboBytes 4 (dict.attr vendor) ++ [UInt8.ofNat (dict.attr item.da)] ++
        item.value).length = 5 + item.value.length := by
      simp only [length_append, length_nboBytes, length_singleton]
    have hdata : nboBytes 4 (dict.attr vendor) ++ [UInt8.ofNat (dict.attr item.da)] ++ item.value ++ rest =
        nboBytes 4 (dict.attr vendor) ++ (UInt8.ofNat (dict.attr item.da) :: (item.value ++ rest)) := by
      simp
    have hextended : ((dict.parent item.ext).elim false fun parent => (dict.flags parent).isExtended) =
        true := by
      rw [(dict.child item.extKnown).2.1, Option.elim_some, Flags.isExtended, item.long, Bool.or_true]
    rw [Option.elim_some, hlen, hdata, frRadiusDecodePairValue_eq, decodePairValueStep,
      if_neg (by omega), if_neg (by simp; omega), if_neg (by omega), hleaf.type_of_some]
    simp only [hextended, if_true,
      decodeExtendedVsa_eq hleaf item.octets hvalue (show item.value.length ≤ 128 * 1024 by omega)]
    rfl

theorem fragmentsLoop_step {flag : UInt8} {p : List UInt8} (hp : p.length ≤ 251)
    (ha : ∀ l, byte (a ++ l) 0 = t ∧ byte (a ++ l) 2 = e) (rounds : ℕ) (held l : List UInt8) :
    fragmentsLoop (a ++ ([t, UInt8.ofNat (4 + p.length), e, flag] ++ p ++ l)) (rounds + 1) a.length
        held false =
      fragmentsLoop (a ++ ([t, UInt8.ofNat (4 + p.length), e, flag] ++ p ++ l)) rounds
        (a ++ ([t, UInt8.ofNat (4 + p.length), e, flag] ++ p)).length (held ++ p)
        (flag &&& 0x80 = 0) := by
  have hlen : (UInt8.ofNat (4 + p.length)).toNat = 4 + p.length :=
    UInt8.toNat_ofNat_of_lt' (show 4 + p.length < 256 by omega)
  have hfrag : (a ++ ([t, UInt8.ofNat (4 + p.length), e, flag] ++ p ++ l)).drop a.length =
      t :: UInt8.ofNat (4 + p.length) :: e :: flag :: (p ++ l) := by
    rw [drop_left, append_assoc]
    rfl
  have hsize : (t :: UInt8.ofNat (4 + p.length) :: e :: flag :: (p ++ l)).length =
      4 + p.length + l.length := by
    simp only [length_cons, length_append]
    omega
  have hvalue : slice (t :: UInt8.ofNat (4 + p.length) :: e :: flag :: (p ++ l)) 4 p.length = p :=
    take_left
  have hbyte : (byte (t :: UInt8.ofNat (4 + p.length) :: e :: flag :: (p ++ l)) 1).toNat =
      4 + p.length := hlen
  obtain ⟨h0, h2⟩ := ha ([t, UInt8.ofNat (4 + p.length), e, flag] ++ p ++ l)
  have hnext : (a ++ ([t, UInt8.ofNat (4 + p.length), e, flag] ++ p)).length =
      a.length + (4 + p.length) := by
    simp only [length_append, length_cons, length_nil]
  rw [fragmentsLoop]
  simp only [hfrag, hbyte, hsize, h0, h2, hnext, Nat.add_sub_cancel_left, hvalue]
  rw [if_neg]
  · rfl
  rintro (h | h | h | h | h | h)
  · cases h
  · omega
  · exact h rfl
  · omega
  · exact h rfl
  · omega

theorem fragments_one (t e : UInt8) (p : List UInt8) : fragments (stamp 4 3 0 [t, 4, e, 0]) [p] =
    [t, UInt8.ofNat (4 + p.length), e, 0] ++ p := rfl

theorem fragments_more (t e : UInt8) (p q : List UInt8) (ps : List (List UInt8)) :
    fragments (stamp 4 3 0 [t, 4, e, 0]) (p :: q :: ps) =
      [t, UInt8.ofNat (4 + p.length), e, 0x80] ++ p ++
        fragments (stamp 4 3 0 [t, 4, e, 0]) (q :: ps) := rfl

/-- The fragments behind the first one are found up to the one without the flag. -/
theorem fragmentsLoop_eq (hps : ∀ p ∈ ps, p.length ≤ 251) (hne : ps ≠ [])
    (ha : ∀ l, byte (a ++ l) 0 = t ∧ byte (a ++ l) 2 = e) (rounds : ℕ)
    (hrounds : ps.length ≤ rounds) (held : List UInt8) :
    fragmentsLoop (a ++ (fragments (stamp 4 3 0 [t, 4, e, 0]) ps ++ rest)) rounds a.length held false =
      (a.length + (fragments (stamp 4 3 0 [t, 4, e, 0]) ps).length, held ++ ps.flatten) := by
  induction ps generalizing a held rounds with
  | nil => exact absurd rfl hne
  | cons p ps ih =>
    obtain ⟨rounds, rfl⟩ : ∃ k, rounds = k + 1 :=
      ⟨rounds - 1, by rw [length_cons] at hrounds; omega⟩
    have hle := hps p mem_cons_self
    cases ps with
    | nil =>
      have hstop : ∀ (data : List UInt8) (k off : ℕ) (h : List UInt8),
          fragmentsLoop data k off h true = (off, h) := by
        intro data k off h
        cases k <;> simp [fragmentsLoop]
      rw [fragments_one, fragmentsLoop_step hle ha, length_append]
      simp [hstop]
    | cons q ps =>
      rw [fragments_more, append_assoc _ _ rest, fragmentsLoop_step hle ha, ← append_assoc a]
      have hih := ih (fun x hx => hps x (mem_cons_of_mem _ hx)) (cons_ne_nil _ _)
        (a := a ++ ([t, UInt8.ofNat (4 + p.length), e, 0x80] ++ p))
        (fun l => by rw [append_assoc]; exact ha _) rounds
        (by rw [length_cons] at hrounds; omega) (held ++ p)
      rw [show decide ((0x80 : UInt8) &&& 0x80 = 0) = false by decide, hih]
      simp only [length_append, flatten_cons, append_assoc, Nat.add_assoc]

section Attribute

variable {da ext : Da} {t e : UInt8} {p : List UInt8} {path : List Da} {vp : Pair Da V}

section

variable (hlong : (dict.flags da).longExtended = true)
  (hext : dict.childByNum da e.toNat = some ext) (hp : 0 < p.length ∧ p.length ≤ 251)

include hlong hext hp

theorem decodeExtended_one
    (hvalue : ∀ s : Lists Da V, frRadiusDecodePairValue dict dp dc ext (p ++ rest) p.length s =
      (some p.length, s.nest path vp)) (s : Lists Da V) :
    decodeExtended dict dp dc da (t :: UInt8.ofNat (4 + p.length) :: e :: 0 :: (p ++ rest)) s =
      (some (4 + p.length), s.nest (da :: path) vp) := by
  have hlen : (byte (t :: UInt8.ofNat (4 + p.length) :: e :: 0 :: (p ++ rest)) 1).toNat = 4 + p.length :=
    UInt8.toNat_ofNat_of_lt' (show 4 + p.length < 256 by omega)
  have hnum : byte (t :: UInt8.ofNat (4 + p.length) :: e :: 0 :: (p ++ rest)) 2 = e := rfl
  have hflag : byte (t :: UInt8.ofNat (4 + p.length) :: e :: 0 :: (p ++ rest)) 3 &&& 0x80 = 0 :=
    show (0 : UInt8) &&& 0x80 = 0 by decide
  have hdrop : (t :: UInt8.ofNat (4 + p.length) :: e :: 0 :: (p ++ rest)).drop 4 = p ++ rest := rfl
  unfold decodeExtended
  simp only [hlen, hnum, hext, Option.getD_some, hlong, Bool.not_true, Bool.false_eq_true, if_false,
    hflag, if_true, hdrop, Nat.add_sub_cancel_left, inGroup_nest hvalue]
  rw [if_neg (by omega), if_neg (by omega)]

theorem decodeExtended_many (hps : ∀ p ∈ ps, p.length ≤ 251) (hne : ps ≠ [])
    (hvalue : ∀ s : Lists Da V, frRadiusDecodePairValue dict dp dc ext (p ++ ps.flatten)
      (p ++ ps.flatten).length s = (some (p ++ ps.flatten).length, s.nest path vp))
    (s : Lists Da V) :
    decodeExtended dict dp dc da ([t, UInt8.ofNat (4 + p.length), e, 0x80] ++ p ++
        (fragments (stamp 4 3 0 [t, 4, e, 0]) ps ++ rest)) s =
      (some (4 + p.length + (fragments (stamp 4 3 0 [t, 4, e, 0]) ps).length),
        s.nest (da :: path) vp) := by
  obtain ⟨data, hdata⟩ : ∃ data, [t, UInt8.ofNat (4 + p.length), e, 0x80] ++ p ++
    (fragments (stamp 4 3 0 [t, 4, e, 0]) ps ++ rest) = data := ⟨_, rfl⟩
  have hlen : (byte data 1).toNat = 4 + p.length := by
    rw [← hdata]
    exact UInt8.toNat_ofNat_of_lt' (show 4 + p.length < 256 by omega)
  have hnum : byte data 2 = e := by rw [← hdata]; rfl
  have hflag : ¬byte data 3 &&& 0x80 = 0 := by
    rw [← hdata]
    exact show ¬(0x80 : UInt8) &&& 0x80 = 0 by decide
  have hfirst : slice data 4 p.length = p := by
    rw [← hdata, append_assoc]
    exact take_left
  have hsize : ([t, UInt8.ofNat (4 + p.length), e, 0x80] ++ p).length = 4 + p.length := by
    simp only [length_append, length_cons, length_nil]
  have hcount : ps.length ≤ data.length := by
    have hfragments : (fragments (stamp 4 3 0 [t, 4, e, 0]) ps).length = 4 * ps.length + ps.flatten.length :=
      length_fragments (rfl : [t, 4, e, 0].length = 4)
    rw [← hdata]
    simp only [length_append, hfragments]
    omega
  have hrun : fragmentsLoop ([t, UInt8.ofNat (4 + p.length), e, 0x80] ++ p ++
      (fragments (stamp 4 3 0 [t, 4, e, 0]) ps ++ rest)) data.length
        ([t, UInt8.ofNat (4 + p.length), e, 0x80] ++ p).length p false = _ :=
    fragmentsLoop_eq hps hne (fun l => ⟨rfl, rfl⟩) data.length hcount p
  rw [hdata, hsize] at hrun
  rw [hdata]
  unfold decodeExtended
  simp only [hlen, hnum, hext, Option.getD_some, hlong, Bool.not_true, Bool.false_eq_true, if_false,
    if_neg hflag, Nat.add_sub_cancel_left, hfirst, hrun, inGroup_nest hvalue]
  rw [if_neg (by omega), if_neg (by omega)]

end

end Attribute

omit [DecidableEq Da] in
theorem path_eq : item.path = item.top :: item.path.tail := by
  unfold path
  cases item.vendor <;> rfl

theorem decodeExtended_eq (rest : List UInt8) (s : Lists Da V) :
    decodeExtended dict dp dc item.top (item.encoding ++ rest) s =
      (some item.encoding.length, s.nest item.path (.leaf item.da (.octets item.value))) := by
  obtain ⟨t, ht⟩ : ∃ t, UInt8.ofNat (dict.attr item.top) = t := ⟨_, rfl⟩
  obtain ⟨e, he⟩ : ∃ e, UInt8.ofNat (dict.attr item.ext) = e := ⟨_, rfl⟩
  have hext : dict.childByNum item.top e.toNat = some item.ext := by
    rw [← he, UInt8.toNat_ofNat_of_lt' item.extNum, item.extKnown]
  have hheader : item.header = [t, 4, e, 0] := by rw [header, ht, he]
  have hpieces := item.pieces
  have hmem := hpieces.forall_mem (by decide)
  have hvalue : ∀ (rest : List UInt8) (s : Lists Da V),
      frRadiusDecodePairValue dict dp dc item.ext (item.evs ++ item.value ++ rest)
        (item.evs ++ item.value).length s = _ := item.decodePairValue_eq
  rw [item.path_eq, encoding, hheader]
  cases hcut : cut 251 (item.evs ++ item.value) with
  | nil =>
    rw [hcut] at hpieces
    exact absurd hpieces.flatten.symm hpieces.ne_nil
  | cons p ps =>
    rw [hcut] at hpieces hmem
    obtain ⟨hne, hle⟩ := hmem p mem_cons_self
    have hp : 0 < p.length ∧ p.length ≤ 251 := ⟨length_pos_iff.mpr hne, hle⟩
    rw [← hpieces.flatten] at hvalue
    cases ps with
    | nil =>
      rw [flatten_singleton] at hvalue
      have hsize : (fragments (stamp 4 3 0 [t, 4, e, 0]) [p]).length = 4 + p.length := by
        rw [fragments_one, length_append]
        rfl
      rw [hsize]
      exact decodeExtended_one item.long hext hp (hvalue rest) s
    | cons q ps =>
      have hwhole := hvalue []
      rw [flatten_cons, append_nil] at hwhole
      rw [fragments_more, append_assoc _ _ rest,
        decodeExtended_many item.long hext hp (fun x hx => (hmem x (mem_cons_of_mem _ hx)).2)
          (cons_ne_nil _ _) hwhole s]
      simp only [length_append, length_cons, length_nil]

omit [DecidableEq Da] in
theorem encoding_eq : ∃ (n : ℕ) (tail : List UInt8), item.encoding =
      UInt8.ofNat (dict.attr item.top) :: UInt8.ofNat n :: tail ∧ 2 < n ∧ n < 256 ∧
        n ≤ item.encoding.length := by
  have hpieces := item.pieces
  have hmem := hpieces.forall_mem (by decide)
  unfold encoding
  cases hcut : cut 251 (item.evs ++ item.value) with
  | nil =>
    rw [hcut] at hpieces
    exact absurd hpieces.flatten.symm hpieces.ne_nil
  | cons p ps =>
    rw [hcut] at hmem
    obtain ⟨-, hle⟩ := hmem p mem_cons_self
    refine ⟨4 + p.length, ?_⟩
    rw [length_fragments item.length_header, flatten_cons, length_append, length_cons]
    cases ps with
    | nil => exact ⟨_, rfl, by omega, by omega, by omega⟩
    | cons q ps => exact ⟨_, rfl, by omega, by omega, by omega⟩

theorem frRadiusDecodePair_eq (rest : List UInt8) (s : Lists Da V) :
    frRadiusDecodePair dict dp dc (item.encoding ++ rest) s =
      (some item.encoding.length, s.nest item.path (.leaf item.da (.octets item.value))) := by
  have hextended : decodeExtended dict dp dc item.top (item.encoding ++ rest) s = _ :=
    item.decodeExtended_eq rest s
  obtain ⟨n, tail, heq, hgt, hlt, hle⟩ := item.encoding_eq
  obtain ⟨t, ht⟩ : ∃ t, UInt8.ofNat (dict.attr item.top) = t := ⟨_, rfl⟩
  have hnum : t.toNat = dict.attr item.top := by
    rw [← ht]
    refine UInt8.toNat_ofNat_of_lt' (show dict.attr item.top < 256 from ?_)
    have := item.num
    simp only [mem_cons, not_mem_nil, or_false] at this
    omega
  have hspecial : special t = true ∧ t ≠ attrNasFilterRuleNum ∧ t ≠ attrDigestAttributesNum := by
    have hmem := item.num
    rw [← hnum] at hmem
    exact forall_uint8 (P := fun t => t.toNat ∈ [241, 242, 243, 244, 245, 246] → special t = true ∧
      t ≠ attrNasFilterRuleNum ∧ t ≠ attrDigestAttributesNum) (by decide) t hmem
  have hflag : (dict.flags item.top).isExtended = true := by
    rw [Flags.isExtended, item.long, Bool.or_true]
  have hbyte₀ : byte (item.encoding ++ rest) 0 = t := by rw [heq, ht]; rfl
  have hbyte₁ : (byte (item.encoding ++ rest) 1).toNat = n := by
    rw [heq]
    exact UInt8.toNat_ofNat_of_lt' hlt
  unfold frRadiusDecodePair
  simp only [hbyte₀, hbyte₁, hnum, item.known, Option.getD_some, hspecial, item.concat, hflag,
    Bool.false_eq_true, and_false, and_self, if_false, if_true, hextended]
  rw [if_neg (by rw [length_append]; omega), if_neg (by omega)]

end Decode

section Lists

variable [DecidableEq Da] {ep : EncodeParams Da V} {dp : DecodeParams Da V} {ec : EncodeCtx}
  {dc : DecodeCtx}

theorem encodePairs_eq {items : List (LongExtended dict)} {room : ℕ}
    (hroom : (items.flatMap encoding).length ≤ room) :
    encodePairs (frRadiusEncodePair dict ep) items.length ec (items.map pair) room =
      .ok (items.flatMap encoding, ec) := by
  induction items generalizing room with
  | nil => rfl
  | cons item items ih =>
    rw [flatMap_cons, length_append] at hroom
    simp only [length_cons, map_cons, encodePairs, isEmpty_cons, Bool.false_eq_true, if_false,
      frRadiusEncodePair_eq item (show item.encoding.length ≤ room by omega), encodeOk_bind,
      ih (show (items.flatMap encoding).length ≤ room - item.encoding.length by omega)]
    rfl

/-- The lists after the leaves have been decoded, one after the other. -/
def place (s : Lists Da V) (items : List (LongExtended dict)) : Lists Da V :=
  items.foldl (fun s item => s.nest item.path (.leaf item.da (.octets item.value))) s

theorem decodeLoop_eq (items : List (LongExtended dict)) (rounds : ℕ)
    (hrounds : (items.flatMap encoding).length ≤ rounds) (s : Lists Da V) :
    decodeLoop dict dp dc rounds (items.flatMap encoding) s = (true, place s items) := by
  induction items generalizing rounds s with
  | nil => cases rounds <;> rfl
  | cons item items ih =>
    have hpos := item.length_encoding
    rw [flatMap_cons, length_append] at hrounds
    obtain ⟨rounds, rfl⟩ : ∃ k, rounds = k + 1 := ⟨rounds - 1, by omega⟩
    have hne : item.encoding ++ items.flatMap encoding ≠ [] := by
      intro h
      rw [(append_eq_nil_iff.mp h).1, length_nil] at hpos
      omega
    rw [flatMap_cons, decodeLoop, if_neg hne, item.frRadiusDecodePair_eq]
    simp only [length_append, if_neg (show ¬item.encoding.length + (items.flatMap encoding).length <
      item.encoding.length by omega), drop_left]
    exact ih rounds (by omega) _

theorem leavesAt_place (path : List Da) (items : List (LongExtended dict)) (s : Lists Da V) :
    leavesAt path (place s items).out = leavesAt path s.out ++
      (items.filter (·.path = path)).map fun item => (item.da, .octets item.value) := by
  induction items generalizing s with
  | nil => exact (append_nil _).symm
  | cons item items ih =>
    have hplace : place s (item :: items) =
        place (s.nest item.path (.leaf item.da (.octets item.value))) items := rfl
    rw [hplace, ih, Lists.nest, leavesAt_appendNested, filter_cons, append_assoc]
    split <;> simp_all

end Lists

theorem fragments_append (header : ℕ → Bool → List UInt8) (ps : List (List UInt8))
    (p : List UInt8) :
    fragments header (ps ++ [p]) =
      ps.flatMap (fun q => header q.length false ++ q) ++ (header p.length true ++ p) := by
  induction ps with
  | nil => rfl
  | cons q ps ih =>
    cases ps with
    | nil => simp [fragments]
    | cons r ps =>
      have hstep : fragments header (q :: r :: ps ++ [p]) =
          header q.length false ++ q ++ fragments header (r :: ps ++ [p]) := rfl
      rw [hstep, ih, flatMap_cons (x := q), append_assoc (header q.length false ++ q)]

end LongExtended

/-- Long extended attributes of any size, one behind the other, are the same after they have been
decoded. All fragments of an attribute but the last one have the flag. -/
theorem longExtended_roundTrips [DecidableEq Da] {dict : Dict Da} {ep : EncodeParams Da V}
    {dp : DecodeParams Da V} {dc : DecodeCtx} (items : List (LongExtended dict)) :
    (∀ ec room, (items.flatMap LongExtended.encoding).length ≤ room →
      encodePairs (frRadiusEncodePair dict ep) items.length ec (items.map LongExtended.pair) room =
        .ok (items.flatMap LongExtended.encoding, ec)) ∧
    (∀ item ∈ items, ∃ (full : List (List UInt8)) (last : List UInt8),
      full.flatten ++ last = item.evs ++ item.value ∧ (∀ p ∈ full, p.length = 251) ∧
        item.encoding = full.flatMap (fun p => [UInt8.ofNat (dict.attr item.top), 255,
            UInt8.ofNat (dict.attr item.ext), 0x80] ++ p) ++
          ([UInt8.ofNat (dict.attr item.top), UInt8.ofNat (4 + last.length),
            UInt8.ofNat (dict.attr item.ext), 0] ++ last)) ∧
    ∀ s : Lists Da V, ∃ t, decodeLoop dict dp dc (items.flatMap LongExtended.encoding).length
        (items.flatMap LongExtended.encoding) s = (true, t) ∧ t = LongExtended.place s items ∧
      ∀ path, leavesAt path t.out = leavesAt path s.out ++
        (items.filter (·.path = path)).map fun item => (item.da, .octets item.value) := by
  refine ⟨fun ec room hroom => LongExtended.encodePairs_eq hroom, fun item _ => ?_,
    fun s => ⟨_, ?_, rfl, ?_⟩⟩
  · obtain ⟨full, last, hcut, hfull⟩ := item.pieces.eq_append
    refine ⟨full, last, ?_, hfull, ?_⟩
    · rw [← item.pieces.flatten, hcut, flatten_append, flatten_singleton]
    have hheader : ∀ p ∈ full, stamp 4 3 0 item.header p.length false ++ p =
        [UInt8.ofNat (dict.attr item.top), 255, UInt8.ofNat (dict.attr item.ext), 0x80] ++ p := by
      intro p hp
      rw [hfull p hp]
      rfl
    rw [LongExtended.encoding, hcut, LongExtended.fragments_append, flatMap_congr hheader]
    rfl
  · exact LongExtended.decodeLoop_eq items _ le_rfl s
  · exact fun path => LongExtended.leavesAt_place path items s

/-- 600 bytes in the attribute 245.1 -/
def LongExtended.plain : LongExtended Dict.sample where
  top := .child .root 245
  ext := .child (.child .root 245) 1
  vendor := none
  da := .child (.child .root 245) 1
  value := replicate 600 7
  num := by decide
  known := rfl
  type := rfl
  long := rfl
  concat := rfl
  extKnown := rfl
  extNum := by decide
  leaf := .plain
  octets := ⟨rfl, .inl rfl, rfl, rfl⟩
  size := by rw [length_replicate]; decide

/-- 600 bytes in the attribute 245.26.24757.3 -/
def LongExtended.evsLeaf (byte : UInt8) : LongExtended Dict.sample where
  top := .child .root 245
  ext := .child (.child .root 245) 26
  vendor := some (.child (.child (.child .root 245) 26) 24757)
  da := .child (.child (.child (.child .root 245) 26) 24757) 3
  value := replicate 600 byte
  num := by decide
  known := rfl
  type := rfl
  long := rfl
  concat := rfl
  extKnown := rfl
  extNum := by decide
  leaf := .vendor rfl rfl (by decide) rfl (by decide)
  octets := ⟨rfl, .inl rfl, rfl, rfl⟩
  size := by rw [length_replicate]; decide

/-- Three attributes of three fragments each, two of them of the same type -/
theorem longExtended_roundTrips_three :
    let items := [LongExtended.plain, LongExtended.evsLeaf 8, LongExtended.evsLeaf 9]
    items.map (·.encoding.length) = [612, 617, 617] ∧
    ∃ data, encodePairs (frRadiusEncodePair Dict.sample (EncodeParams.sample : EncodeParams _ ℕ)) 3
        EncodeCtx.sample (items.map LongExtended.pair) 4096 = .ok (data, EncodeCtx.sample) ∧
      ∃ t : Lists SampleDa ℕ, decodeLoop Dict.sample DecodeParams.sample DecodeCtx.sample data.length
          data ⟨[], []⟩ = (true, t) ∧
        leavesAt (LongExtended.evsLeaf 8).path t.out =
          [((LongExtended.evsLeaf 8).da, .octets (replicate 600 8)),
            ((LongExtended.evsLeaf 8).da, .octets (replicate 600 9))] := by
  intro items
  have hlength : ∀ (item : LongExtended Dict.sample) (n : ℕ), item.evs.length = n →
      item.value.length = 600 → item.encoding.length = 4 * ((n + 600 + 250) / 251) + (n + 600) := by
    rintro item n rfl hvalue
    rw [item.length_encoding_eq, length_append, hvalue]
  have hlen : items.map (·.encoding.length) = [612, 617, 617] := by
    simp only [items, map_cons, map_nil, hlength LongExtended.plain 0 rfl length_replicate,
      fun byte => hlength (LongExtended.evsLeaf byte) 5 rfl length_replicate]
  obtain ⟨hencode, -, hdecode⟩ := @longExtended_roundTrips SampleDa ℕ _ Dict.sample
    EncodeParams.sample DecodeParams.sample DecodeCtx.sample items
  obtain ⟨t, ht, -, hleaves⟩ := hdecode ⟨[], []⟩
  refine ⟨hlen, _, hencode _ _ ?_, t, ht, hleaves _⟩
  rw [length_flatMap, hlen]
  decide

end FreeRadius.Radius
