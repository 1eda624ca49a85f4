import FreeRadius.Cbor.Groups
import FreeRadius.Cbor.Pair

/-!
# Trees of pairs

A tree of pairs is read back as it was written, except that a string ends at
its first zero byte.
-/

namespace FreeRadius.Cbor

open Library List FrValueBox

variable {ι : Type} {fl : FloatOps} {dict : Dict ι}

section Leaves

/-- The values of a leaf: an unsigned integer that its type can hold, a truth
value, or bytes that are not too many. -/
inductive PairLeaf : FrValueBox → Prop
  | unsigned {t : IntType} {vbUint64 : BitVec 64} (ht : t.isSigned = false)
    (h : vbUint64.toNat < 2 ^ t.width) : PairLeaf (.integer t vbUint64)
  | bool (value : Bool) : PairLeaf (.bool value)
  | string {value : List UInt8} (h : value.length ≤ 2 ^ 20) : PairLeaf (.string value)
  | octets {value : List UInt8} (h : value.length ≤ 2 ^ 20) : PairLeaf (.octets value)

/-- What a box is read back as. -/
def FrValueBox.readBack : FrValueBox → FrValueBox
  | .string value => strdupShallow value
  | vb => vb

theorem store_unsignedPayload {t : IntType} {cell : BitVec 64} (ht : t.isSigned = false)
    (h : cell.toNat < 2 ^ t.width) : t.store (unsignedPayload t cell) = .integer t cell := by
  rw [IntType.store, ofInt_unsignedPayload ht, integer.injEq]
  refine ⟨rfl, BitVec.eq_of_toNat_eq ?_⟩
  rw [BitVec.toNat_setWidth, BitVec.toNat_setWidth, Nat.mod_eq_of_lt h, Nat.mod_eq_of_lt cell.isLt]

theorem PairLeaf.decode {vb : FrValueBox} (h : PairLeaf vb) (fuel : ℕ) (rest : List UInt8) :
    frCborDecodeValueBox fl (fuel + 1) (boxBytes vb ++ rest) vb.type = .ok (vb.readBack, rest) := by
  cases h with
  | @unsigned t cell ht hcell =>
    have hmax : unsignedPayload t cell ≤ t.max :=
      (unsignedPayload_le_max_iff ht).mpr fun h32 => by simpa [h32, IntType.width] using hcell
    rw [boxBytes, integerBoxBytes, ht, if_neg (by simp), type,
      decode_integer fl t fuel (unsignedPayload_lt t cell) rest (resolvedType_declared (by simp) _),
      if_neg (by omega), store_unsignedPayload ht hcell]
    rfl
  | bool value => exact decode_bool value fuel (resolvedType_declared (by simp [type]) _)
  | @string value hlen =>
    rw [type, decode_string (by omega) fuel (resolvedType_declared (by simp) _),
      if_neg (by omega)]
    rfl
  | @octets value hlen =>
    rw [type, decode_octets (by omega) fuel (resolvedType_declared (by simp) _),
      if_neg (by omega)]
    rfl

theorem PairLeaf.encodable {vb : FrValueBox} (h : PairLeaf vb) : Encodable vb := by
  cases h with
  | unsigned _ _ => exact .integer _ _
  | bool value => exact .bool value
  | string _ => exact .string _
  | octets _ => exact .octets _

end Leaves

section Trees

/-- The attribute is found as a child of its parent. -/
def IsChild (dict : Dict ι) (parent da : ι) : Prop :=
  dict.parent da = some parent ∧ dict.childByNum parent (dict.attr da) = some da

/-- Trees whose inner pairs are TLVs, VSAs and vendors, with direct children.
Attribute numbers have 32 bits, and counts are those of `size_t`. -/
inductive PairTree (dict : Dict ι) : FrPair ι → Prop
  | leaf {da : ι} {data : FrValueBox} (hattr : dict.attr da < 2 ^ 32)
    (htype : dict.type da = data.type) (hleaf : PairLeaf data) : PairTree dict (.leaf da data)
  | structural {da : ι} {t : StructType} {vpGroup : List (FrPair ι)} (hattr : dict.attr da < 2 ^ 32)
    (htype : dict.type da = .structural t) (ht : t = .tlv ∨ t = .vsa ∨ t = .vendor)
    (hlen : vpGroup.length < 2 ^ 64) (hchild : ∀ child ∈ vpGroup, IsChild dict da child.da)
    (h : ∀ child ∈ vpGroup, PairTree dict child) : PairTree dict (.structural da vpGroup)

mutual

def FrPair.leaves : FrPair ι → List FrValueBox
  | .leaf _ data => [data]
  | .structural _ vpGroup => groupLeaves vpGroup

def groupLeaves : List (FrPair ι) → List FrValueBox
  | [] => []
  | child :: rest => child.leaves ++ groupLeaves rest

end

mutual

/-- What a pair is read back as. -/
def FrPair.readBack : FrPair ι → FrPair ι
  | .leaf da data => .leaf da data.readBack
  | .structural da vpGroup => .structural da (groupReadBack vpGroup)

def groupReadBack : List (FrPair ι) → List (FrPair ι)
  | [] => []
  | child :: rest => child.readBack :: groupReadBack rest

end

theorem groupReadBack_eq_iff {vpGroup : List (FrPair ι)}
    (ih : ∀ child ∈ vpGroup, child.readBack = child ↔
      ∀ value, .string value ∈ child.leaves → 0 ∉ value) :
    groupReadBack vpGroup = vpGroup ↔
      ∀ value, .string value ∈ groupLeaves vpGroup → 0 ∉ value := by
  induction vpGroup with
  | nil => simp [groupReadBack, groupLeaves]
  | cons child rest ihr =>
    rw [groupReadBack, groupLeaves, List.cons.injEq, ih child (by simp),
      ihr fun c hc => ih c (by simp [hc])]
    simp only [mem_append]
    exact ⟨fun h value hmem => hmem.elim (h.1 value) (h.2 value),
      fun h => ⟨fun value hmem => h value (.inl hmem), fun value hmem => h value (.inr hmem)⟩⟩

/-- A tree is read back as itself exactly if no string has a zero byte. -/
theorem readBack_eq_iff {vp : FrPair ι} (h : PairTree dict vp) :
    vp.readBack = vp ↔ ∀ value, .string value ∈ vp.leaves → 0 ∉ value := by
  induction h with
  | @leaf da data hattr htype hleaf =>
    rw [FrPair.readBack, FrPair.leaves, FrPair.leaf.injEq]
    cases hleaf with
    | string hlen =>
      simp [readBack, strdupShallow_eq_iff]
    | _ => simp [readBack]
  | @structural da t vpGroup hattr htype ht hlen hchild hgroup ih =>
    rw [FrPair.readBack, FrPair.leaves, FrPair.structural.injEq, groupReadBack_eq_iff ih]
    simp

end Trees

section Encoding

def keyBytes (dict : Dict ι) (da : ι) : List UInt8 :=
  header cborMap 1 :: integerBytes cborInteger (dict.attr da)

mutual

def pairBytes (dict : Dict ι) : FrPair ι → List UInt8
  | .leaf da data => keyBytes dict da ++ boxBytes data
  | .structural da [] => keyBytes dict da ++ [header cborFloat 22]
  | .structural da (child :: rest) =>
    keyBytes dict da ++ (integerBytes cborArray (rest.length + 1) ++
      (pairBytes dict child ++ groupBytes dict rest))

def groupBytes (dict : Dict ι) : List (FrPair ι) → List UInt8
  | [] => []
  | child :: rest => pairBytes dict child ++ groupBytes dict rest

end

theorem pairBytes_ne_nil (vp : FrPair ι) : pairBytes dict vp ≠ [] := by
  unfold pairBytes
  split <;> simp [keyBytes]

theorem appends_key (dict : Dict ι) (da : ι) :
    Appends (fun work => frDbuffIn work [header cborMap 1] >>= fun work =>
      returnSlen work (cborEncodeInteger work cborInteger (dict.attr da))) (keyBytes dict da) :=
  (appends_in [header cborMap 1]).bind (appends_integer cborInteger (dict.attr da))

theorem encodeChildren_appends [DecidableEq ι] {parent : ι} {vpGroup : List (FrPair ι)}
    (hparent : ∀ child ∈ vpGroup, IsChild dict parent child.da) (ih : ∀ child ∈ vpGroup,
      Writes (fun dbuff => frCborEncodePair dict dbuff child) (pairBytes dict child)) :
    Appends (fun work => encodeChildren dict (some parent) work vpGroup)
      (groupBytes dict vpGroup) := by
  induction vpGroup with
  | nil =>
    exact appends_nil
  | cons child rest ihr =>
    have hkeep : ¬dict.parent child.da ≠ some parent := not_not.mpr (hparent child (by simp)).1
    simp only [encodeChildren, if_neg hkeep, groupBytes]
    exact ((ih child (by simp)).call (pairBytes_ne_nil child)).bind
      (ihr (fun c hc => hparent c (by simp [hc])) fun c hc => ih c (by simp [hc]))

theorem childrenParent_eq {da : ι} {t : StructType} (error : FrType → CborError)
    (htype : dict.type da = .structural t) (ht : t = .tlv ∨ t = .vsa ∨ t = .vendor) :
    childrenParent dict da error = .ok (some da) := by
  rw [childrenParent, htype]
  rcases ht with rfl | rfl | rfl <;> rfl

theorem encodePair_writes [DecidableEq ι] {vp : FrPair ι} (h : PairTree dict vp) :
    Writes (fun dbuff => frCborEncodePair dict dbuff vp) (pairBytes dict vp) := by
  induction h with
  | @leaf da data hattr htype hleaf =>
    rw [pairBytes]
    exact ((appends_key dict da).bind ((encodeValueBox_writes hleaf.encodable).call
      (boxBytes_ne_nil hleaf.encodable))).writes.congr fun dbuff => by
        simp [frCborEncodePair, encodeKey]
  | @structural da t vpGroup hattr htype ht hlen hchild hgroup ih =>
    have hparent := childrenParent_eq .encodingType htype ht
    cases vpGroup with
    | nil =>
      rw [pairBytes]
      exact ((appends_key dict da).bind (appends_in [header cborFloat 22])).writes.congr
        fun dbuff => by simp [frCborEncodePair, encodeKey, hparent]
    | cons child rest =>
      have hcount : ((child :: rest).filter fun c => dict.parent c.da = some da).length =
          rest.length + 1 := by
        rw [List.filter_eq_self.mpr fun c hc => by simpa using (hchild c hc).1, length_cons]
      have hchildren := encodeChildren_appends hchild ih
      rw [groupBytes] at hchildren
      rw [pairBytes]
      refine ((appends_key dict da).bind ((appends_integer cborArray (rest.length + 1)).bind
        hchildren)).writes.congr fun dbuff => ?_
      rw [frCborEncodePair, hparent]
      simp [encodeKey, hcount]

end Encoding

section Decoding

variable {rest : List UInt8}

theorem decodeKey_eq {n : ℕ} (hn : n < 2 ^ 64) :
    decodeKey (header cborMap 1 :: (integerBytes cborInteger n ++ rest)) = .ok (n, rest) := by
  obtain ⟨info, payload, hbytes, hinfo, hdecode⟩ := integerBytes_spec cborInteger hn
  rw [hbytes, decodeKey, frDbuffOut_cons, ok_bind]
  simp only [ne_eq, not_true_eq_false, if_false, cons_append, frDbuffOut_cons, ok_bind,
    majorOf_header (by decide : cborInteger < 8) (by omega : info < 32),
    infoOf_header (by decide : cborInteger < 8) (by omega : info < 32), hdecode, returnIfNegative_ok]

/-- The pair is read behind any other pairs, and what follows it stays. -/
def PairReads (fl : FloatOps) (dict : Dict ι) (vp : FrPair ι) : Prop :=
  ∀ parent, IsChild dict parent vp.da → ∃ bound, ∀ fuel, bound ≤ fuel → ∀ out rest,
    frCborDecodePair fl dict fuel out (pairBytes dict vp ++ rest) parent =
      .ok (out ++ [vp.readBack], rest)

theorem decodeChildren_reads {parent : ι} {vpGroup : List (FrPair ι)}
    (hparent : ∀ child ∈ vpGroup, IsChild dict parent child.da)
    (ih : ∀ child ∈ vpGroup, PairReads fl dict child) :
    ∃ bound, ∀ fuel, bound ≤ fuel → ∀ out dbuff rest,
      decodeChildren fl dict fuel out dbuff (groupBytes dict vpGroup ++ rest) (some parent)
        vpGroup.length false = .ok (out ++ groupReadBack vpGroup, rest) := by
  induction vpGroup with
  | nil =>
    refine ⟨1, fun fuel hfuel out dbuff rest => ?_⟩
    obtain ⟨n, rfl⟩ := Nat.exists_eq_add_of_le' hfuel
    rw [groupBytes, nil_append, length_nil, decodeChildren, groupReadBack, append_nil]
  | cons child vpGroup ihr =>
    obtain ⟨b₁, hread⟩ := ih child (by simp) parent (hparent child (by simp))
    obtain ⟨b₂, hloop⟩ :=
      ihr (fun c hc => hparent c (by simp [hc])) fun c hc => ih c (by simp [hc])
    refine ⟨max b₁ b₂ + 1, fun fuel hfuel out dbuff rest => ?_⟩
    obtain ⟨n, rfl⟩ := Nat.exists_eq_add_of_le' hfuel
    obtain ⟨tail, hbytes⟩ : ∃ tail, pairBytes dict child = header cborMap 1 :: tail := by
      unfold pairBytes
      split <;> exact ⟨_, rfl⟩
    have hfirst := hread (n + max b₁ b₂) (by omega) out (groupBytes dict vpGroup ++ rest)
    have hcall : returnUnlessPositive dbuff (pairBytes dict child ++ (groupBytes dict vpGroup ++ rest))
        (frCborDecodePair fl dict (n + max b₁ b₂) out
          (pairBytes dict child ++ (groupBytes dict vpGroup ++ rest)) parent) =
        .ok (out ++ [child.readBack], groupBytes dict vpGroup ++ rest) := by
      rw [hfirst, returnUnlessPositive_ok (pairBytes_ne_nil child)]
    rw [hbytes, cons_append] at hcall
    rw [groupBytes, append_assoc, length_cons, ← Nat.add_assoc, hbytes, cons_append, decodeChildren,
      if_neg (header_ne_break (by decide) (by decide)), hcall, ok_bind]
    dsimp only
    rw [hloop _ (by omega), groupReadBack, append_assoc, singleton_append]

theorem decodePair_key {parent da : ι} (h : IsChild dict parent da) (hattr : dict.attr da < 2 ^ 32)
    {fuel : ℕ} {out : List (FrPair ι)} :
    frCborDecodePair fl dict (fuel + 1) out (keyBytes dict da ++ rest) parent =
      if (dict.type da).isStructural = false then
        returnUnlessPositive (keyBytes dict da ++ rest) rest
          (frCborDecodeValueBox fl fuel rest (dict.type da)) >>= fun result =>
            frDbuffSetIn (keyBytes dict da ++ rest) result.2 (out ++ [.leaf da result.1])
      else
        childrenParent dict da .childType >>= fun parent => frDbuffOut rest >>= fun first =>
          if majorOf first.1 ≠ cborArray then
            if majorOf first.1 = cborFloat ∧ infoOf first.1 = 22 then
              frDbuffSetIn (keyBytes dict da ++ rest) first.2 (out ++ [.structural da []])
            else .error ⟨-1, some (.expectedArray (majorOf first.1))⟩
          else
            arrayCount (keyBytes dict da ++ rest) first.2 (some (dict.attr da)) (infoOf first.1) >>=
              fun count => decodeChildren fl dict fuel [] (keyBytes dict da ++ rest) count.2 parent
                count.1.1 count.1.2 >>= fun result =>
                  frDbuffSetIn (keyBytes dict da ++ rest) result.2
                    (out ++ [.structural da result.1]) := by
  rw [frCborDecodePair, keyBytes, cons_append, decodeKey_eq (by omega), ok_bind]
  dsimp only
  rw [decodeDa, Nat.mod_eq_of_lt hattr, h.2]
  rfl

theorem PairTree.reads {vp : FrPair ι} (h : PairTree dict vp) : PairReads fl dict vp := by
  induction h with
  | @leaf da data hattr htype hleaf =>
    intro parent hchild
    rw [FrPair.da] at hchild
    refine ⟨2, fun fuel hfuel out rest => ?_⟩
    obtain ⟨n, rfl⟩ := Nat.exists_eq_add_of_le' hfuel
    have hstruct : (dict.type da).isStructural = false := by
      rw [htype]
      cases hleaf <;> rfl
    rw [pairBytes, append_assoc, show n + 2 = n + 1 + 1 from rfl, decodePair_key hchild hattr,
      if_pos hstruct, htype, hleaf.decode n rest,
      returnUnlessPositive_ok (boxBytes_ne_nil hleaf.encodable), ok_bind, ← append_assoc,
      frDbuffSetIn_append, FrPair.readBack]
  | @structural da t vpGroup hattr htype ht hlen hparent hgroup ih =>
    intro parent hchild
    rw [FrPair.da] at hchild
    have hstruct : ¬(dict.type da).isStructural = false := by
      rw [htype]
      simp [FrType.isStructural]
    cases vpGroup with
    | nil =>
      refine ⟨1, fun fuel hfuel out rest => ?_⟩
      obtain ⟨n, rfl⟩ := Nat.exists_eq_add_of_le' hfuel
      rw [pairBytes, append_assoc, decodePair_key hchild hattr, if_neg hstruct,
        childrenParent_eq .childType htype ht, ok_bind, singleton_append, frDbuffOut_cons, ok_bind]
      dsimp only
      rw [if_pos (by decide), if_pos (by decide), frDbuffSetIn, if_pos (by simp; omega),
        FrPair.readBack, groupReadBack]
    | cons child others =>
      obtain ⟨bound, hloop⟩ := decodeChildren_reads hparent ih
      obtain ⟨info, payload, hbytes, hinfo, hdecode⟩ := integerBytes_spec cborArray hlen
      refine ⟨bound + 1, fun fuel hfuel out rest => ?_⟩
      obtain ⟨n, rfl⟩ := Nat.exists_eq_add_of_le' hfuel
      have hpair : pairBytes dict (.structural da (child :: others)) ++ rest = keyBytes dict da ++
          (header cborArray info :: (payload ++ (groupBytes dict (child :: others) ++ rest))) := by
        rw [pairBytes, groupBytes, ← @length_cons _ child, hbytes]
        simp
      rw [hpair, ← Nat.add_assoc, decodePair_key hchild hattr, if_neg hstruct,
        childrenParent_eq .childType htype ht, ok_bind, frDbuffOut_cons, ok_bind]
      rw [majorOf_header (by decide) (by omega), if_neg (not_not.mpr rfl),
        infoOf_header (by decide) (by omega), arrayCount_eq hinfo hdecode, ok_bind]
      rw [hloop _ (by omega), ok_bind, nil_append, ← FrPair.readBack]
      rw [frDbuffSetIn, if_pos (by simp; omega)]

end Decoding

section RoundTrip

variable [DecidableEq ι]

/-- The bytes that the tree is written as are read as a tree that is equal to
it, which is appended to the list, as far as the last of them. -/
def PairRoundTrips (fl : FloatOps) (dict : Dict ι) (parent : ι) (vp : FrPair ι) : Prop :=
  ∃ bytes, Writes (fun dbuff => frCborEncodePair dict dbuff vp) bytes ∧ ∀ out,
    Returns (fun fuel => (frCborDecodePair fl dict fuel out bytes parent).toOption) (out ++ [vp], [])

/-- A tree comes back exactly if no string in it has a zero byte. -/
theorem pair_roundTrips_iff (fl : FloatOps) (dict : Dict ι) (parent : ι) (vp : FrPair ι)
    (h : PairTree dict vp) (hchild : IsChild dict parent vp.da) :
    PairRoundTrips fl dict parent vp ↔ ∀ value, .string value ∈ vp.leaves → 0 ∉ value := by
  rw [← readBack_eq_iff h]
  have hreads : PairReads fl dict vp := h.reads
  obtain ⟨bound, hread⟩ := hreads parent hchild
  have hreturns : ∀ out, Returns
      (fun fuel => (frCborDecodePair fl dict fuel out (pairBytes dict vp) parent).toOption)
      (out ++ [vp.readBack], []) := by
    refine fun out => ⟨bound, fun fuel hfuel => ?_⟩
    have := hread fuel hfuel out []
    rw [append_nil] at this
    beta_reduce
    rw [this]
    rfl
  constructor
  · rintro ⟨bytes, hwrites, hdecode⟩
    obtain rfl := hwrites.unique (encodePair_writes h)
    have heq := (hreturns []).unique (hdecode [])
    simpa using heq
  · intro heq
    rw [heq] at hreturns
    exact ⟨_, encodePair_writes h, hreturns⟩

/-- The attribute 1 is a TLV with the string 2 and the TLV 3, which has the string 4. -/
def tlvDict : Dict (Fin 5) where
  attr da := da
  type da := if da ∈ [2, 4] then .string else .structural .tlv
  parent da := [none, some 0, some 1, some 1, some 3].getD da none
  childByNum parent num :=
    if (parent, num) ∈ [(0, 1), (1, 2), (1, 3), (3, 4)] then some (Fin.ofNat 5 num) else none
  ref _ := none
  unknown _ _ _ := 0

/-- A TLV with the string "ab", another TLV and the string "c" comes back. -/
theorem tlv_roundTrips :
    PairRoundTrips .unused tlvDict 0 (.structural 1 [.leaf 2 (.string [97, 98]),
      .structural 3 [.leaf 4 (.string []), .leaf 4 (.string [100])], .leaf 2 (.string [99])]) := by
  have hleaf : ∀ da value, da ∈ [2, 4] → value.length ≤ 2 →
      PairTree tlvDict (.leaf da (.string value)) := by
    intro da value hda hlen
    refine .leaf ?_ ?_ (.string (by omega))
    · revert da
      decide
    · exact if_pos hda
  have hinner : PairTree tlvDict (.structural 3 [.leaf 4 (.string []), .leaf 4 (.string [100])]) := by
    refine .structural (by decide) rfl (.inl rfl) (by decide) ?_ ?_
    · simp [FrPair.da, IsChild, tlvDict]
    · simp [hleaf]
  refine (pair_roundTrips_iff .unused tlvDict 0 _
    (.structural (by decide) rfl (.inl rfl) (by decide) ?_ ?_) ⟨rfl, rfl⟩).mpr ?_
  · simp [FrPair.da, IsChild, tlvDict]
  · simp [hleaf, hinner]
  · simp [FrPair.leaves, groupLeaves]

/-- A string of "a", a zero byte and "b" is read as "a". -/
theorem string_with_zero_is_cut :
    (frCborEncodePair tlvDict ⟨[], 16⟩ (.leaf 2 (.string [97, 0, 98]))).map (fun d => d.1.used) =
        .ok [0xa1, 0x02, 0x63, 97, 0, 98] ∧
      frCborDecodePair .unused tlvDict 2 [] [0xa1, 0x02, 0x63, 97, 0, 98] 1 =
        .ok ([.leaf 2 (.string [97])], []) := by
  refine ⟨rfl, rfl⟩

end RoundTrip

end FreeRadius.Cbor
