import FreeRadius.Dhcpv4.Options

/-!
# Vendor options

Each known vendor is a block with its own length, and so is each sub-option of an unknown one. The
length of the option is that of all blocks in one byte, and the decoder adds the sub-options of a
known vendor to those it has already seen.
-/

namespace FreeRadius.Dhcpv4

open Library List

section Encode

def vendorBlock (vendor : UInt32 × List Sub) : List UInt8 :=
  nboBytes 4 vendor.1.toNat ++ UInt8.ofNat (wire vendor.2).length :: wire vendor.2

/-- The blocks of all vendors, in order. -/
def vendorBlocks (knownVendor : UInt32 → Bool) (vendors : List (UInt32 × List Sub)) :
    List (UInt32 × List Sub) :=
  vendors.flatMap (vsioBlocks knownVendor)

def vendorPairs (vendors : List (UInt32 × List Sub)) : List VsaChild :=
  vendors.map fun vendor => .vendor vendor.1 vendor.2

variable {vendors : List (UInt32 × List Sub)} {subs : List Sub} {mem : List UInt8}

theorem length_vendorBlock (vendor : UInt32 × List Sub) :
    (vendorBlock vendor).length = 5 + (wire vendor.2).length := by
  simp [vendorBlock]
  omega

theorem length_le_flatMap_vendorBlock (vendors : List (UInt32 × List Sub)) :
    vendors.length ≤ (vendors.flatMap vendorBlock).length := by
  induction vendors with
  | nil => exact le_rfl
  | cons vendor vendors ih =>
    rw [flatMap_cons, length_append, length_vendorBlock, length_cons]
    omega

theorem encodeChildren_short (h : ∀ sub ∈ subs, sub.value.length ≤ 255) :
    encodeChildren mem subs =
      if (wire subs).length ≤ mem.length then some (wire subs, mem.drop (wire subs).length) else none := by
  induction subs generalizing mem with
  | nil => rfl
  | cons sub subs ih =>
    have hsub := h sub mem_cons_self
    have hlen : (wire (sub :: subs)).length = 2 + sub.value.length + (wire subs).length := by
      rw [length_wire, length_wire, map_cons, sum_cons]
      omega
    rw [encodeChildren, encodeRfc]
    by_cases hroom : mem.length < 2 + sub.value.length
    · rw [if_pos hroom, if_neg (by omega)]
      rfl
    rw [if_neg hroom, writeLen, if_pos hsub, Option.bind_some,
      ih fun s hs => h s (mem_cons_of_mem _ hs), hlen, length_drop, drop_drop]
    by_cases hfits : (wire subs).length ≤ mem.length - (2 + sub.value.length)
    · rw [if_pos hfits, if_pos (by omega)]
      rfl
    · rw [if_neg hfits, if_neg (by omega)]
      rfl

theorem encodeVsioData_eq {pen : UInt32} (h : ∀ sub ∈ subs, sub.value.length ≤ 255)
    (hne : 2 ≤ (wire subs).length) :
    encodeVsioData mem pen subs =
      if 5 + (wire subs).length ≤ min mem.length 248 then
        some (vendorBlock (pen, subs), mem.drop (5 + (wire subs).length))
      else none := by
  obtain ⟨room, hroom⟩ : ∃ room, room = min mem.length 248 := ⟨_, rfl⟩
  have hdrop : ((mem.take room).drop 5).length = room - 5 := by
    rw [length_drop, length_take, hroom, min_assoc, min_comm 248, ← min_assoc, min_self]
  simp only [encodeVsioData, ← hroom, encodeChildren_short h, hdrop, Nat.reduceAdd, Nat.reduceSub]
  by_cases hfits : 5 + (wire subs).length ≤ room
  · rw [if_neg (by omega), if_pos (by omega), if_pos hfits, drop_drop, Option.map_some]
    -- what is left of the block's room is followed by the rest of the memory
    have hbehind : (mem.take room).drop (5 + (wire subs).length) ++ mem.drop room =
        mem.drop (5 + (wire subs).length) := by
      conv_rhs => rw [← take_append_drop room mem]
      rw [drop_append_of_le_length]
      rw [length_take]
      omega
    rw [hbehind]
    rfl
  · rw [if_neg hfits]
    split
    · rfl
    · rw [if_neg (by omega)]
      rfl

/-- All blocks have room, in 248 bytes each and in the memory. -/
def BlocksFit (room : ℕ) (blocks : List (UInt32 × List Sub)) : Prop :=
  (∀ block ∈ blocks, (wire block.2).length ≤ 243) ∧ (blocks.flatMap vendorBlock).length ≤ room

instance (room : ℕ) (blocks : List (UInt32 × List Sub)) : Decidable (BlocksFit room blocks) :=
  inferInstanceAs (Decidable (_ ∧ _))

theorem two_le_wire (h : subs ≠ []) : 2 ≤ (wire subs).length := by
  cases subs with
  | nil => exact absurd rfl h
  | cons sub subs =>
    rw [length_wire, map_cons, sum_cons]
    omega

theorem encodeBlocks_eq (h : ∀ block ∈ vendors, block.2 ≠ [] ∧
      ∀ sub ∈ block.2, sub.value.length ≤ 255) :
    encodeBlocks mem vendors = if BlocksFit mem.length vendors then
      some (vendors.flatMap vendorBlock, mem.drop (vendors.flatMap vendorBlock).length) else none := by
  induction vendors generalizing mem with
  | nil => simp [encodeBlocks, BlocksFit]
  | cons block blocks ih =>
    obtain ⟨pen, subs⟩ := block
    obtain ⟨hsubs, hshort⟩ := h (pen, subs) mem_cons_self
    have hrest := fun mem => @ih mem fun v hv => h v (mem_cons_of_mem _ hv)
    have hfit : BlocksFit mem.length ((pen, subs) :: blocks) ↔
        5 + (wire subs).length ≤ min mem.length 248 ∧
        BlocksFit (mem.length - (5 + (wire subs).length)) blocks := by
      rw [BlocksFit, BlocksFit, flatMap_cons, forall_mem_cons, length_append, length_vendorBlock]
      dsimp only
      constructor
      · rintro ⟨⟨hsize, hall⟩, hmem⟩
        exact ⟨by omega, hall, by omega⟩
      · rintro ⟨hsize, hall, hmem⟩
        exact ⟨⟨by omega, hall⟩, by omega⟩
    rw [encodeBlocks, encodeVsioData_eq hshort (two_le_wire hsubs)]
    simp only [hfit]
    by_cases hsize : 5 + (wire subs).length ≤ min mem.length 248
    · rw [if_pos hsize, Option.bind_some, hrest, length_drop]
      simp only [hsize, true_and]
      split
      · rw [flatMap_cons, drop_drop, length_append, length_vendorBlock]
        rfl
      · rfl
    · rw [if_neg hsize, if_neg fun hall => hsize hall.1]
      rfl

variable {knownVendor : UInt32 → Bool}

/-- Every block has a sub-option of its vendor, and only one if the vendor is unknown. -/
theorem of_mem_vendorBlocks {block : UInt32 × List Sub} (h : block ∈ vendorBlocks knownVendor vendors) :
    (∃ vendor ∈ vendors, block.1 = vendor.1 ∧ ∀ sub ∈ block.2, sub ∈ vendor.2) ∧ block.2 ≠ [] ∧
      (knownVendor block.1 = false → block.2.length = 1) := by
  obtain ⟨vendor, hvendor, h⟩ := mem_flatMap.mp h
  rw [vsioBlocks] at h
  split_ifs at h with hsubs hknown
  · cases h
  · rw [mem_singleton.mp h]
    exact ⟨⟨vendor, hvendor, rfl, fun _ => id⟩, hsubs, fun h => by cases hknown.symm.trans h⟩
  · obtain ⟨sub, hsub, rfl⟩ := mem_map.mp h
    exact ⟨⟨vendor, hvendor, rfl, fun s hs => mem_singleton.mp hs ▸ hsub⟩, cons_ne_nil _ _,
      fun _ => rfl⟩

theorem encodeBlocks_vendorBlocks
    (h : ∀ vendor ∈ vendors, ∀ sub ∈ vendor.2, sub.value.length ≤ 255) :
    encodeBlocks mem (vendorBlocks knownVendor vendors) =
      if BlocksFit mem.length (vendorBlocks knownVendor vendors) then
        some ((vendorBlocks knownVendor vendors).flatMap vendorBlock,
          mem.drop ((vendorBlocks knownVendor vendors).flatMap vendorBlock).length)
      else none := by
  refine encodeBlocks_eq fun block hblock => ?_
  obtain ⟨⟨vendor, hvendor, -, hsubs⟩, hne, -⟩ := of_mem_vendorBlocks hblock
  exact ⟨hne, fun sub hsub => h vendor hvendor sub (hsubs sub hsub)⟩

theorem encodeBlocks_append (front back : List (UInt32 × List Sub)) :
    encodeBlocks mem (front ++ back) = (encodeBlocks mem front).bind fun first =>
      (encodeBlocks first.2 back).map fun rest => (first.1 ++ rest.1, rest.2) := by
  induction front generalizing mem with
  | nil => simp [encodeBlocks]
  | cons block front ih =>
    rw [cons_append, encodeBlocks, encodeBlocks, Option.bind_assoc]
    refine congrArg _ (funext fun first => ?_)
    rw [ih]
    cases encodeBlocks first.2 front <;> simp [Function.comp_def]

/-- The loop over the vendors writes all blocks, if it has enough rounds. -/
theorem encodeVendors_vendors (rounds : ℕ) :
    encodeVendors knownVendor rounds mem (vendorPairs vendors) =
        some (encodeBlocks mem (vendorBlocks knownVendor vendors)) ∨
      rounds ≤ vendors.length ∧ encodeVendors knownVendor rounds mem (vendorPairs vendors) = none := by
  induction vendors generalizing rounds mem with
  | nil =>
    cases rounds with
    | zero => exact .inr ⟨le_rfl, rfl⟩
    | succ rounds => exact .inl rfl
  | cons vendor vendors ih =>
    cases rounds with
    | zero => exact .inr ⟨Nat.zero_le _, rfl⟩
    | succ rounds =>
      rw [vendorPairs, map_cons, encodeVendors, ← vendorPairs, vendorBlocks, flatMap_cons,
        encodeBlocks_append, ← vendorBlocks]
      cases encodeBlocks mem (vsioBlocks knownVendor vendor) with
      | none => exact .inl rfl
      | some first =>
        dsimp only
        rcases @ih first.2 rounds with hrest | ⟨hlt, hrest⟩
        · rw [hrest]
          exact .inl rfl
        · rw [hrest]
          exact .inr ⟨Nat.succ_le_succ hlt, rfl⟩

end Encode

section Decode

variable {knownVendor : UInt32 → Bool} {known : UInt32 → UInt8 → Bool} {vendors : List (UInt32 × List Sub)}

/-- What the decoder makes of the blocks, one after the other. -/
def foldVendors (knownVendor : UInt32 → Bool) (out : List VsaChild)
    (vendors : List (UInt32 × List Sub)) :
    List VsaChild :=
  vendors.foldl (fun out vendor => appendSubs knownVendor vendor.1 vendor.2 out) out

theorem decodeVsa_blocks (hne : vendors ≠ [])
    (h : ∀ vendor ∈ vendors, vendor.2 ≠ [] ∧ (wire vendor.2).length ≤ 243 ∧
      ∀ sub ∈ vendor.2, sub.value.length ≤ 255 ∧ sub.raw = !known vendor.1 sub.number)
    {rounds : ℕ} (hrounds : vendors.length ≤ rounds) (out : List VsaChild) :
    decodeVsa knownVendor known rounds out (vendors.flatMap vendorBlock) =
      some (foldVendors knownVendor out vendors) := by
  induction vendors generalizing rounds out with
  | nil => exact absurd rfl hne
  | cons vendor vendors ih =>
    obtain ⟨pen, subs⟩ := vendor
    obtain ⟨rounds, rfl⟩ : ∃ n, rounds = n + 1 := ⟨rounds - 1, by rw [length_cons] at hrounds; omega⟩
    obtain ⟨hsubs, hsize, hall⟩ := h (pen, subs) mem_cons_self
    dsimp only at hsubs hsize hall
    have hwire := two_le_wire hsubs
    obtain ⟨rest, hrest⟩ : ∃ rest, rest = vendors.flatMap vendorBlock := ⟨_, rfl⟩
    have hdata : (((pen, subs) :: vendors).flatMap vendorBlock) =
        nboBytes 4 pen.toNat ++ UInt8.ofNat (wire subs).length :: (wire subs ++ rest) := by
      rw [flatMap_cons, ← hrest, vendorBlock, append_assoc, cons_append]
    have hlen : (UInt8.ofNat (wire subs).length).toNat = (wire subs).length :=
      toNat_ofNat_length (by omega)
    have hpen : UInt32.ofNat (nboValue (nboBytes 4 pen.toNat)) = pen := by
      rw [nboValue_nboBytes pen.toNat_lt, UInt32.ofNat_toNat]
    have hfour := length_nboBytes 4 pen.toNat
    have htake : ∀ tail, (nboBytes 4 pen.toNat ++ tail).take 4 = nboBytes 4 pen.toNat := fun tail =>
      take_left' hfour
    have hdrop : ∀ tail, (nboBytes 4 pen.toNat ++ tail).drop 4 = tail := fun tail => drop_left' hfour
    rw [hdata, decodeVsa, if_neg (by simp; omega), ← drop_drop, htake, hdrop, hpen]
    simp only [headD_cons, drop_succ_cons, drop_zero, hlen, take_left, drop_left,
      decodeTlvs_wire hall, Option.bind_some]
    rw [if_neg (by simp), if_neg (by omega), foldVendors, foldl_cons, ← foldVendors]
    cases vendors with
    | nil => rw [hrest]; rfl
    | cons next vendors =>
      rw [if_neg, hrest, ih (cons_ne_nil _ _) (fun v hv => h v (mem_cons_of_mem _ hv))
        (Nat.le_of_succ_le_succ hrounds)]
      rw [hrest, flatMap_cons, vendorBlock]
      simp

variable {pen : UInt32} {subs : List Sub} {done : List (UInt32 × List Sub)}

theorem appendSubs_found (hknown : knownVendor pen = true) (h : pen ∈ done.map (·.1)) :
    (appendSubs knownVendor pen subs (vendorPairs done)).length = done.length := by
  induction done with
  | nil => cases h
  | cons vendor done ih =>
    rw [vendorPairs, map_cons, appendSubs, ← vendorPairs]
    split
    · simp [vendorPairs]
    · next hpen =>
      rw [map_cons, mem_cons] at h
      rw [length_cons, length_cons, ih (h.resolve_left fun heq => hpen (by simp [hknown, ← heq]))]

theorem appendSubs_new (h : ¬(knownVendor pen = true ∧ pen ∈ done.map (·.1))) :
    appendSubs knownVendor pen subs (vendorPairs done) = vendorPairs (done ++ [(pen, subs)]) := by
  induction done with
  | nil => rfl
  | cons vendor done ih =>
    rw [vendorPairs, map_cons, appendSubs, ← vendorPairs, if_neg,
      ih fun hmem => h ⟨hmem.1, by simp [hmem.2]⟩]
    · rfl
    · intro hpen
      exact h (by simp at hpen; simp [hpen])

/-- What holds of the sub-options of a known vendor twice holds of them together. -/
def Additive (knownVendor : UInt32 → Bool) (p : UInt32 × List Sub → Prop) : Prop :=
  ∀ pen subs subs', knownVendor pen = true → p (pen, subs) → p (pen, subs') → p (pen, subs ++ subs')

/-- There is at most one vendor more. -/
theorem appendSubs_vendorPairs (knownVendor : UInt32 → Bool) (pen : UInt32) (subs : List Sub)
    (done : List (UInt32 × List Sub)) :
    ∃ done', appendSubs knownVendor pen subs (vendorPairs done) = vendorPairs done' ∧
      done'.length ≤ done.length + 1 ∧ ∀ p, Additive knownVendor p → p (pen, subs) →
        (∀ v ∈ done, p v) → ∀ v ∈ done', p v := by
  induction done with
  | nil => exact ⟨[(pen, subs)], rfl, le_rfl, fun p _ hp _ => forall_mem_singleton.mpr hp⟩
  | cons vendor done ih =>
    obtain ⟨done', heq, hlen, hall⟩ := ih
    rw [vendorPairs, map_cons, appendSubs, ← vendorPairs]
    split
    · next hfound =>
      obtain ⟨hknown, rfl⟩ : knownVendor pen = true ∧ vendor.1 = pen := by simpa using hfound
      refine ⟨(vendor.1, vendor.2 ++ subs) :: done, rfl, Nat.le_succ _, fun p hadd hp h => ?_⟩
      obtain ⟨hvendor, hdone⟩ := forall_mem_cons.mp h
      exact forall_mem_cons.mpr ⟨hadd _ _ _ hknown hvendor hp, hdone⟩
    · refine ⟨vendor :: done', by rw [heq]; rfl, Nat.succ_le_succ hlen, fun p hadd hp h => ?_⟩
      obtain ⟨hvendor, hdone⟩ := forall_mem_cons.mp h
      exact forall_mem_cons.mpr ⟨hvendor, hall p hadd hp hdone⟩

theorem foldVendors_vendorPairs (knownVendor : UInt32 → Bool) (vendors done : List (UInt32 × List Sub)) :
    ∃ done', foldVendors knownVendor (vendorPairs done) vendors = vendorPairs done' ∧
      done'.length ≤ done.length + vendors.length ∧ ∀ p, Additive knownVendor p →
        (∀ v ∈ vendors, p v) → (∀ v ∈ done, p v) → ∀ v ∈ done', p v := by
  induction vendors generalizing done with
  | nil => exact ⟨done, rfl, le_rfl, fun _ _ _ => id⟩
  | cons vendor vendors ih =>
    obtain ⟨done₁, heq, hlen, hall⟩ := appendSubs_vendorPairs knownVendor vendor.1 vendor.2 done
    obtain ⟨done', hfold, hlen', hall'⟩ := ih done₁
    refine ⟨done', by rw [foldVendors, foldl_cons, heq]; exact hfold, ?_, fun p hadd h hdone => ?_⟩
    · rw [length_cons]
      omega
    · obtain ⟨hvendor, hvendors⟩ := forall_mem_cons.mp h
      exact hall' p hadd hvendors (hall p hadd hvendor hdone)

theorem vendorPairs_injective : Function.Injective vendorPairs := by
  refine map_injective_iff.mpr ?_
  rintro ⟨pen, subs⟩ ⟨pen', subs'⟩ ⟨⟩
  rfl

/-- The vendors come back if no known one is there twice. -/
theorem foldVendors_iff (hdone : done.Pairwise fun a b => ¬(knownVendor b.1 = true ∧ a.1 = b.1)) :
    foldVendors knownVendor (vendorPairs done) vendors = vendorPairs (done ++ vendors) ↔
      (done ++ vendors).Pairwise fun a b => ¬(knownVendor b.1 = true ∧ a.1 = b.1) := by
  induction vendors generalizing done with
  | nil => simpa [foldVendors] using hdone
  | cons vendor vendors ih =>
    rw [foldVendors, foldl_cons, ← foldVendors]
    by_cases hfound : knownVendor vendor.1 = true ∧ vendor.1 ∈ done.map (·.1)
    · refine iff_of_false (fun heq => ?_) fun hpair => ?_
      · obtain ⟨done₁, hdone₁, -⟩ := appendSubs_vendorPairs knownVendor vendor.1 vendor.2 done
        have hsame := @appendSubs_found knownVendor vendor.1 vendor.2 done hfound.1 hfound.2
        obtain ⟨done', hfold, hlen, -⟩ := foldVendors_vendorPairs knownVendor vendors done₁
        rw [hdone₁, vendorPairs, length_map] at hsame
        rw [← hdone₁, heq] at hfold
        rw [← vendorPairs_injective hfold, length_append, length_cons] at hlen
        omega
      · obtain ⟨v, hv, heq⟩ := mem_map.mp hfound.2
        exact (pairwise_append.mp hpair).2.2 v hv vendor mem_cons_self ⟨hfound.1, heq⟩
    · rw [appendSubs_new hfound, append_cons done vendor vendors, ih]
      refine pairwise_append.mpr ⟨hdone, pairwise_singleton _ _, fun v hv w hw heq => hfound ?_⟩
      rw [mem_singleton.mp hw] at heq
      exact ⟨heq.1, mem_map.mpr ⟨v, hv, heq.2⟩⟩

/-- Every vendor has one block: it has a sub-option, and no other one if it is unknown. -/
def OneBlock (knownVendor : UInt32 → Bool) (vendors : List (UInt32 × List Sub)) : Prop :=
  ∀ vendor ∈ vendors, vendor.2 ≠ [] ∧ (knownVendor vendor.1 = false → vendor.2.length = 1)

theorem OneBlock.vendorBlocks_eq (h : OneBlock knownVendor vendors) :
    vendorBlocks knownVendor vendors = vendors := by
  induction vendors with
  | nil => rfl
  | cons vendor vendors ih =>
    obtain ⟨pen, subs⟩ := vendor
    obtain ⟨hsubs, hone⟩ := h (pen, subs) mem_cons_self
    rw [vendorBlocks, flatMap_cons, ← vendorBlocks, ih fun v hv => h v (mem_cons_of_mem _ hv),
      vsioBlocks, if_neg hsubs]
    cases hknown : knownVendor pen with
    | true => rfl
    | false =>
      obtain ⟨sub, rfl⟩ := length_eq_one_iff.mp (hone hknown)
      rfl

/-- The vendors come back if each of them is one block and no known one is there twice. -/
theorem foldVendors_vendorBlocks_iff :
    foldVendors knownVendor [] (vendorBlocks knownVendor vendors) = vendorPairs vendors ↔
      OneBlock knownVendor vendors ∧
        vendors.Pairwise fun a b => ¬(knownVendor b.1 = true ∧ a.1 = b.1) := by
  have hfold := @foldVendors_iff knownVendor vendors [] .nil
  rw [nil_append] at hfold
  constructor
  · intro h
    have hone : OneBlock knownVendor vendors := by
      obtain ⟨done, hdone, -, hall⟩ := foldVendors_vendorPairs knownVendor (vendorBlocks _ vendors) []
      obtain rfl := vendorPairs_injective (h.symm.trans hdone)
      refine hall (fun v => v.2 ≠ [] ∧ (knownVendor v.1 = false → v.2.length = 1)) ?_
        (fun block hblock => (of_mem_vendorBlocks hblock).2) nofun
      intro pen subs subs' hknown hsubs _
      refine ⟨fun h => hsubs.1 (append_eq_nil_iff.mp h).1, fun hfalse => ?_⟩
      cases hknown.symm.trans hfalse
    rw [hone.vendorBlocks_eq] at h
    exact ⟨hone, hfold.mp h⟩
  · rintro ⟨hone, hpair⟩
    rw [hone.vendorBlocks_eq]
    exact hfold.mpr hpair

end Decode

section RoundTrip

/-- If the option is written then its length and those of its blocks are right, and the decoder
returns the same vendors. -/
def VsaRoundTripsOrFails (undef : UInt32) (dict : UInt8 → Option DaType) (rounds : ℕ)
    (mem : List UInt8)
    (number : UInt8) (vendors : List (UInt32 × List Sub)) : Prop :=
  ∀ out rest, frDhcpv4EncodeOption undef dict rounds mem (.vsa number (vendorPairs vendors)) =
      some (some (out, rest)) →
    (∃ data, data.length ≤ 255 ∧ out = optionOf number data ∧ data = vendors.flatMap vendorBlock ∧
      ∀ vendor ∈ vendors, (wire vendor.2).length ≤ 255) ∧
    frDhcpv4DecodeOption dict out = some (out.length, [.vsa number (vendorPairs vendors)])

theorem decode_vsa {dict : UInt8 → Option DaType} {number : UInt8} {knownVendor : UInt32 → Bool}
    {known : UInt32 → UInt8 → Bool} (hdict : dict number = some (.vsa knownVendor known))
    (hzero : number ≠ 0) (hend : number ≠ 255) {data : List UInt8} (hlen : data.length ≤ 255) :
    frDhcpv4DecodeOption dict (optionOf number data) = some ((optionOf number data).length,
      ((decodeVsa knownVendor known (data.length + 1) [] data).elim [.raw number data]
        fun children => [.vsa number children])) := by
  have h := @frDhcpv4DecodeOption_options dict number data hzero hend
  rw [options, cut_of_le hlen, flatMap_singleton, if_pos hlen] at h
  rw [h, decodeOption, hdict]
  dsimp only
  cases decodeVsa knownVendor known (data.length + 1) [] data <;> rfl

theorem frDhcpv4EncodeOption_vsa {undef : UInt32} {dict : UInt8 → Option DaType} {rounds : ℕ}
    {mem : List UInt8} {number : UInt8} {knownVendor : UInt32 → Bool} {known : UInt32 → UInt8 → Bool}
    {vendors : List (UInt32 × List Sub)} (hdict : dict number = some (.vsa knownVendor known))
    (h : ∀ vendor ∈ vendors, ∀ sub ∈ vendor.2, sub.value.length ≤ 255)
    (hrounds : vendors.length < rounds) :
    frDhcpv4EncodeOption undef dict rounds mem (.vsa number (vendorPairs vendors)) =
      some (if 2 ≤ mem.length ∧ BlocksFit (mem.length - 2) (vendorBlocks knownVendor vendors) then
        some (optionOf number ((vendorBlocks knownVendor vendors).flatMap vendorBlock),
          (mem.drop 2).drop ((vendorBlocks knownVendor vendors).flatMap vendorBlock).length)
      else none) := by
  simp only [frDhcpv4EncodeOption, hdict, encodeVsio]
  split
  · rw [if_neg (by omega)]
  next hmem =>
  have hvendors := (@encodeVendors_vendors vendors (mem.drop 2) knownVendor rounds).resolve_right
    fun hle => absurd hle.1 (by omega)
  rw [hvendors, encodeBlocks_vendorBlocks h, length_drop]
  simp only [Nat.le_of_not_lt hmem, true_and]
  split <;> rfl

/-- The encoder returns, and a vendor option goes through the encoder and the decoder or is not
written if and only if a block or the memory is too small for it, or all blocks have 255 bytes, there
is one, every vendor has a sub-option, and only one if it is unknown, and no known vendor is there
twice. -/
theorem dhcpv4Vsa_roundTrip_iff {undef : UInt32} {dict : UInt8 → Option DaType} {rounds : ℕ}
    {mem : List UInt8} {number : UInt8} {knownVendor : UInt32 → Bool}
    {known : UInt32 → UInt8 → Bool}
    {vendors : List (UInt32 × List Sub)} (hdict : dict number = some (.vsa knownVendor known))
    (hzero : number ≠ 0) (hend : number ≠ 255) (hrounds : vendors.length < rounds)
    (hsubs : ∀ vendor ∈ vendors, ∀ sub ∈ vendor.2, (0 < sub.value.length ∧ sub.value.length ≤ 200) ∧
      sub.raw = !known vendor.1 sub.number) :
    frDhcpv4EncodeOption undef dict rounds mem (.vsa number (vendorPairs vendors)) ≠ none ∧
    (VsaRoundTripsOrFails undef dict rounds mem number vendors ↔
      (∃ block ∈ vendorBlocks knownVendor vendors, 243 < (wire block.2).length) ∨
      mem.length < 2 + ((vendorBlocks knownVendor vendors).flatMap vendorBlock).length ∨
      ((vendorBlocks knownVendor vendors).flatMap vendorBlock).length ≤ 255 ∧ vendors ≠ [] ∧
        OneBlock knownVendor vendors ∧
        vendors.Pairwise fun a b => ¬(knownVendor b.1 = true ∧ a.1 = b.1)) := by
  obtain ⟨blocks, hblocks⟩ : ∃ blocks, blocks = vendorBlocks knownVendor vendors := ⟨_, rfl⟩
  have hencode := @frDhcpv4EncodeOption_vsa undef dict rounds mem number _ _ vendors hdict
    (fun v hv s hs => (hsubs v hv s hs).1.2.trans (by decide)) hrounds
  rw [← hblocks] at hencode ⊢
  have hfit : (2 ≤ mem.length ∧ BlocksFit (mem.length - 2) blocks) ↔
      ¬((∃ block ∈ blocks, 243 < (wire block.2).length) ∨
        mem.length < 2 + (blocks.flatMap vendorBlock).length) := by
    rw [BlocksFit]
    push Not
    constructor
    · rintro ⟨hmem, hall, hlen⟩
      exact ⟨hall, by omega⟩
    · rintro ⟨hall, hlen⟩
      exact ⟨by omega, hall, by omega⟩
  refine ⟨by rw [hencode]; simp, ?_⟩
  rw [← or_assoc]
  by_cases hfits : 2 ≤ mem.length ∧ BlocksFit (mem.length - 2) blocks
  · rw [or_iff_right (hfit.mp hfits), VsaRoundTripsOrFails]
    rw [if_pos hfits] at hencode
    have hdecode : blocks ≠ [] → decodeVsa knownVendor known ((blocks.flatMap vendorBlock).length + 1)
        [] (blocks.flatMap vendorBlock) = some (foldVendors knownVendor [] blocks) := by
      intro hne
      refine decodeVsa_blocks hne (fun block hblock => ?_) ?_ _
      · obtain ⟨⟨vendor, hvendor, hpen, hmem⟩, hne, -⟩ := of_mem_vendorBlocks (hblocks ▸ hblock)
        refine ⟨hne, hfits.2.1 block hblock, fun s hs => ?_⟩
        have hsub := hsubs vendor hvendor s (hmem s hs)
        exact ⟨hsub.1.2.trans (by decide), hpen ▸ hsub.2⟩
      · exact (length_le_flatMap_vendorBlock blocks).trans (Nat.le_succ _)
    constructor
    · intro h
      obtain ⟨⟨data, hlen, hout, -⟩, hdecoded⟩ := h _ _ hencode
      obtain rfl : blocks.flatMap vendorBlock = data := (List.cons.inj (List.cons.inj hout).2).2
      rw [decode_vsa hdict hzero hend hlen] at hdecoded
      have hne : blocks ≠ [] := by
        rintro rfl
        cases hdecoded
      rw [hdecode hne] at hdecoded
      have hsame : foldVendors knownVendor [] blocks = vendorPairs vendors := by
        simpa using hdecoded
      refine ⟨hlen, ?_, foldVendors_vendorBlocks_iff.mp (hblocks ▸ hsame)⟩
      rintro rfl
      exact hne hblocks
    · rintro ⟨hlen, hne, hone, hpair⟩ out rest hout
      rw [hencode] at hout
      cases hout
      have hsame : blocks = vendors := hblocks.trans hone.vendorBlocks_eq
      refine ⟨⟨_, hlen, rfl, by rw [hsame], fun v hv =>
        (hfits.2.1 v (hsame.symm ▸ hv)).trans (by decide)⟩, ?_⟩
      rw [decode_vsa hdict hzero hend hlen, hdecode (hsame.symm ▸ hne), hblocks,
        foldVendors_vendorBlocks_iff.mpr ⟨hone, hpair⟩]
      rfl
  · refine iff_of_true (fun out rest hout => ?_) (.inl (not_not.mp fun h => hfits (hfit.mpr h)))
    rw [hencode, if_neg hfits] at hout
    cases hout

/-- A dictionary whose options are all vendor options, which knows the vendor 9. -/
def vsaDict : UInt8 → Option DaType := fun _ => some (.vsa (· == 9) fun pen _ => pen == 9)

theorem dhcpv4Vsa_roundTrip_two :
    VsaRoundTripsOrFails 0 vsaDict 3 (replicate 64 0) 125
      [(9, [⟨1, [7], false⟩, ⟨1, [8], false⟩]), (11, [⟨2, [9], true⟩])] :=
  (dhcpv4Vsa_roundTrip_iff rfl (by decide) (by decide) (by decide) (by decide)).2.mpr
    (.inr (.inr ⟨by decide, by decide, by simp [OneBlock], by simp⟩))

def twoVendors (value : List UInt8) : List (UInt32 × List Sub) :=
  [(9, [⟨1, value, false⟩]), (11, [⟨1, value, true⟩])]

/-- The number of the bytes does not fit into the length of the option, which is 158. -/
theorem dhcpv4Vsa_truncated :
    ∃ value mem data rest, value.length = 200 ∧
      frDhcpv4EncodeOption 0 vsaDict 3 mem (.vsa 125 (vendorPairs (twoVendors value))) =
        some (some (125 :: 158 :: data, rest)) ∧ data.length = 414 ∧
      ¬VsaRoundTripsOrFails 0 vsaDict 3 mem 125 (twoVendors value) := by
  obtain ⟨value, hvalue⟩ : ∃ value : List UInt8, value.length = 200 := ⟨_, length_replicate (a := 0)⟩
  obtain ⟨mem, hmem⟩ : ∃ mem : List UInt8, mem.length = 512 := ⟨_, length_replicate (a := 0)⟩
  have hblocks : vendorBlocks (· == 9) (twoVendors value) = twoVendors value :=
    OneBlock.vendorBlocks_eq (by simp [OneBlock, twoVendors])
  have hlen : ((twoVendors value).flatMap vendorBlock).length = 414 := by
    simp [twoVendors, length_vendorBlock, length_wire, hvalue]
  have hencode := @frDhcpv4EncodeOption_vsa 0 vsaDict 3 mem 125 _ _ (twoVendors value) rfl
    (by simp [twoVendors, hvalue]) (Nat.lt_succ_self 2)
  rw [hblocks, if_pos ⟨by omega, by simp [twoVendors, length_wire, hvalue], by omega⟩, optionOf, hlen]
    at hencode
  refine ⟨value, mem, _, _, hvalue, hencode, hlen, fun h => ?_⟩
  obtain ⟨⟨data, hle, hdata, -⟩, -⟩ := h _ _ hencode
  rw [← (List.cons.inj (List.cons.inj hdata).2).2, hlen] at hle
  omega

end RoundTrip

section Termination

variable {knownVendor : UInt32 → Bool} {known : UInt32 → UInt8 → Bool} {mem : List UInt8}
  {children : List VsaChild} {vendors : List (UInt32 × List Sub)}

/-- The loop stays at a child that is not a vendor, unless it has failed in front of it. -/
theorem encodeVendors_raw (rounds : ℕ) (front : List VsaChild) (pen : UInt32) (raw : List UInt8) :
    encodeVendors knownVendor rounds mem (front ++ .raw pen raw :: children) =
      if encodeVendors knownVendor rounds mem front = some none then some none else none := by
  induction rounds generalizing mem front with
  | zero => rfl
  | succ rounds ih =>
    cases front with
    | nil =>
      have hnil : ∀ rounds, encodeVendors knownVendor rounds mem [] ≠ some none := by
        rintro (_ | _) ⟨⟩
      rw [if_neg (hnil _), nil_append, encodeVendors, ← nil_append (.raw pen raw :: children), ih,
        if_neg (hnil _)]
    | cons child front =>
      cases child with
      | raw pen' raw' => exact ih (.raw pen' raw' :: front)
      | vendor pen' subs =>
        rw [cons_append, encodeVendors, encodeVendors]
        split
        · rfl
        · rw [ih]
          split <;> simp_all

/-- The values of the sub-options have a length in one byte. -/
def Short (vendors : List (UInt32 × List Sub)) : Prop :=
  ∀ vendor ∈ vendors, ∀ sub ∈ vendor.2, sub.value.length ≤ 255

theorem short_decodeSubs {known : UInt8 → Bool} {rounds : ℕ} {data : List UInt8} {subs : List Sub}
    (h : decodeSubs known rounds data = some subs) : ∀ sub ∈ subs, sub.value.length ≤ 255 := by
  fun_induction decodeSubs known rounds data generalizing subs with
  | case1 => simp_all
  | case2 => cases h
  | case3 rounds number len rest hlen ih =>
    obtain ⟨subs, hsubs, rfl⟩ := Option.map_eq_some_iff.mp h
    refine forall_mem_cons.mpr ⟨?_, ih hsubs⟩
    have := len.toNat_lt
    rw [length_take]
    omega
  | case4 => cases h

/-- The decoder returns vendors, and a raw child behind them if the last one is malformed. -/
theorem decodeVsa_vendors {rounds : ℕ} {data : List UInt8} (hshort : Short vendors)
    (h : decodeVsa knownVendor known rounds (vendorPairs vendors) data = some children) :
    ∃ vendors', Short vendors' ∧ (children = vendorPairs vendors' ∨
      ∃ pen raw, children = vendorPairs vendors' ++ [.raw pen raw]) := by
  induction rounds generalizing vendors data with
  | zero => cases h
  | succ rounds ih =>
    rw [decodeVsa] at h
    dsimp only at h
    split at h
    · cases h
    split at h
    · cases h
      exact ⟨vendors, hshort, .inr ⟨_, _, rfl⟩⟩
    split at h
    · exact ih hshort h
    obtain ⟨subs, hsubs, h⟩ := Option.bind_eq_some_iff.mp h
    obtain ⟨vendors', heq, -, hall⟩ := appendSubs_vendorPairs knownVendor _ subs vendors
    have hshort' : Short vendors' := by
      refine hall (fun v => ∀ sub ∈ v.2, sub.value.length ≤ 255) ?_ (short_decodeSubs hsubs) hshort
      intro pen subs subs' _ hsubs hsubs' sub hsub
      exact (mem_append.mp hsub).elim (hsubs sub) (hsubs' sub)
    rw [heq] at h
    split at h
    · cases h
      exact ⟨vendors', hshort', .inl rfl⟩
    · exact ih hshort' h

/-- What was decoded from a vendor option is encoded in a finite number of rounds. -/
def Reencodes (undef : UInt32) (dict : UInt8 → Option DaType) (mem : List UInt8) (number : UInt8)
    (data : List UInt8) : Prop :=
  ∃ n pair, frDhcpv4DecodeOption dict (optionOf number data) = some (n, [pair]) ∧
    ∃ rounds, frDhcpv4EncodeOption undef dict rounds mem pair ≠ none

end Termination

end FreeRadius.Dhcpv4
