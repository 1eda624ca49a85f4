import FreeRadius.Dhcpv4.Model
import FreeRadius.Library.Pieces

/-!
# Long options

What the encoder splits in place is a run of options of 255 bytes and a last one, and the decoder
joins such a run. Sub-options that follow each other are joined by the encoder if they have the
same da, and come back as one.
-/

namespace FreeRadius.Dhcpv4

open Library List

section Split

def optionOf (number : UInt8) (data : List UInt8) : List UInt8 :=
  number :: UInt8.ofNat data.length :: data

def options (number : UInt8) (data : List UInt8) : List UInt8 :=
  (cut 255 data).flatMap (optionOf number)

variable {number : UInt8} {data behind : List UInt8} {ps : List (List UInt8)}

theorem cut_of_le (h : data.length ≤ 255) : cut 255 data = [data] := by
  rw [cut]
  cases hlen : data.length with
  | zero => rfl
  | succ n => rw [cutLoop, if_pos h]

theorem length_flatMap_optionOf (number : UInt8) (ps : List (List UInt8)) :
    (ps.flatMap (optionOf number)).length = ps.flatten.length + 2 * ps.length := by
  induction ps with
  | nil => rfl
  | cons p ps ih =>
    simp only [flatMap_cons, length_append, ih, optionOf, length_cons, flatten_cons]
    omega

theorem cut_spec (data : List UInt8) : (cut 255 data).flatten = data ∧
    (∀ d ∈ cut 255 data, d.length ≤ 255) ∧ (cut 255 data).length ≤ data.length / 255 + 1 := by
  rcases eq_or_ne data [] with rfl | hne
  · exact ⟨rfl, by decide, by decide⟩
  have h := pieces_cut (w := 255) (by decide) hne
  refine ⟨h.flatten, fun d hd => (h.forall_mem (by decide) d hd).2, ?_⟩
  rw [h.length_eq (by decide)]
  omega

theorem length_options_le : (options number data).length ≤ 2 * data.length + 2 := by
  obtain ⟨hflat, -, hlen⟩ := cut_spec data
  rw [options, length_flatMap_optionOf, hflat]
  omega

theorem extendLoop_full {d : List UInt8} (hd : d.length = 255) (hdata : 0 < data.length)
    (a b : UInt8) (rounds : ℕ) : extendLoop number (rounds + 1) (a :: b :: (d ++ data) ++ behind)
    (d ++ data).length =
      (extendLoop number rounds (frDbuffMove (data ++ behind) 2 data.length) data.length).map
        fun next => (optionOf number d ++ next.1, next.2) := by
  have hlong : (d ++ data).length > 255 := by
    rw [length_append]
    omega
  have hsub : (d ++ data).length - 255 = data.length := by
    rw [length_append]
    omega
  have htake : (number :: UInt8.ofNat 255 :: ((d ++ data) ++ behind)).take (2 + 255) = optionOf number d := by
    rw [Nat.add_comm, ← hd, take_succ_cons, take_succ_cons, append_assoc, take_left]
    rfl
  have hdrop : (number :: UInt8.ofNat 255 :: ((d ++ data) ++ behind)).drop (2 + 255) = data ++ behind := by
    rw [Nat.add_comm, ← hd, drop_succ_cons, drop_succ_cons, append_assoc, drop_left]
  have hmem : (a :: b :: (d ++ data) ++ behind).drop 2 = d ++ data ++ behind := rfl
  rw [extendLoop, if_neg (by simp)]
  dsimp only
  rw [if_pos hlong, hsub, if_neg (by omega), hmem, htake, hdrop]

/-- The loop moves the rest of the data behind each header that it inserts. -/
theorem extendLoop_pieces (h : Pieces 255 data ps) (a b : UInt8) {rounds : ℕ}
    (hrounds : ps.length ≤ rounds) (hroom : 2 * ps.length ≤ behind.length + 2) :
    extendLoop number rounds (a :: b :: data ++ behind) data.length =
      some (ps.flatMap (optionOf number), behind.drop (2 * (ps.length - 1))) := by
  induction h generalizing a b rounds behind with
  | @last data hne hle =>
    obtain ⟨rounds, rfl⟩ := Nat.exists_eq_add_of_le' hrounds
    have hnot : ¬data.length > 255 := by omega
    simp [extendLoop, hnot, optionOf]
  | @full d data ps hd h ih =>
    have hdata : 0 < data.length := length_pos_iff.mpr h.ne_nil
    have hps : 0 < ps.length := by
      rw [h.length_eq (by decide)]
      omega
    rw [length_cons] at hrounds hroom
    obtain ⟨rounds, rfl⟩ : ∃ n, rounds = n + 1 := ⟨rounds - 1, by omega⟩
    obtain ⟨x, y, hxy⟩ : ∃ x y, (data ++ behind).take 2 = [x, y] := by
      rw [← length_eq_two, length_take, length_append]
      omega
    have hmove : frDbuffMove (data ++ behind) 2 data.length = x :: y :: data ++ behind.drop 2 := by
      rw [frDbuffMove, hxy, take_left, ← drop_drop, drop_left]
      rfl
    rw [extendLoop_full hd hdata, hmove, ih x y (by omega) (by rw [length_drop]; omega), drop_drop,
      length_cons, show 2 + 2 * (ps.length - 1) = 2 * (ps.length + 1 - 1) by omega]
    rfl

theorem writeLen_eq (hroom : 2 * data.length + 2 ≤ data.length + 2 + behind.length) :
    ∃ rest, writeLen number data behind = some (options number data, rest) ∧
      (options number data).length + rest.length = data.length + 2 + behind.length := by
  rw [writeLen]
  split
  · next hle =>
    have hone : options number data = optionOf number data := by
      rw [options, cut_of_le hle, flatMap_singleton]
    rw [hone]
    exact ⟨behind, rfl, by rw [optionOf, length_cons, length_cons]⟩
  next hlong =>
  obtain ⟨hflat, -, hlen⟩ := cut_spec data
  have hne : data ≠ [] := fun h => hlong (by rw [h]; decide)
  refine ⟨behind.drop (2 * ((cut 255 data).length - 1)), ?_, ?_⟩
  · exact extendLoop_pieces (pieces_cut (by decide) hne) number 0 (by simp; omega) (by omega)
  have hpos : 0 < (cut 255 data).length := by
    rw [(pieces_cut (by decide) hne).length_eq (by decide)]
    omega
  rw [options, length_flatMap_optionOf, hflat, length_drop]
  omega

theorem encodeRfc_eq {mem : List UInt8} (hroom : 2 * data.length + 2 ≤ mem.length) :
    ∃ rest, encodeRfc mem number data = some (options number data, rest) ∧
      (options number data).length + rest.length = mem.length := by
  have hlen : (mem.drop (2 + data.length)).length = mem.length - (2 + data.length) := length_drop
  rw [encodeRfc, if_neg (by omega)]
  obtain ⟨rest, hrest, hsum⟩ := @writeLen_eq number data (mem.drop (2 + data.length)) (by omega)
  exact ⟨rest, hrest, by omega⟩

end Split

section Join

variable {dict : UInt8 → Option DaType} {number : UInt8} {data : List UInt8}

theorem toNat_ofNat_length (h : data.length ≤ 255) :
    (UInt8.ofNat data.length).toNat = data.length :=
  UInt8.toNat_ofNat_of_lt (Nat.lt_succ_of_le h)

theorem concatOptions_flatMap {ps : List (List UInt8)} (hps : ∀ d ∈ ps, d.length ≤ 255) {rounds : ℕ}
    (hrounds : ps.length ≤ rounds) {buffer : List UInt8} (hbuffer : buffer.length ≤ concatSize) :
    concatOptions number rounds buffer (ps.flatMap (optionOf number)) =
      if (buffer ++ ps.flatten).length ≤ concatSize then some (buffer ++ ps.flatten, []) else none := by
  induction ps generalizing rounds buffer with
  | nil => cases rounds <;> simp [concatOptions, hbuffer]
  | cons d ps ih =>
    obtain ⟨rounds, rfl⟩ : ∃ n, rounds = n + 1 := ⟨rounds - 1, by rw [length_cons] at hrounds; omega⟩
    have hd := toNat_ofNat_length (hps d mem_cons_self)
    rw [flatMap_cons, optionOf, cons_append, cons_append, concatOptions, hd,
      if_neg (fun h => h rfl), if_neg (by simp), take_left, drop_left]
    split
    · next hlong =>
      rw [if_neg]
      simp only [flatten_cons, length_append]
      omega
    · next hshort =>
      rw [ih (fun d hd => hps d (mem_cons_of_mem _ hd)) (by simpa using hrounds)
        (by rw [length_append]; omega), flatten_cons, append_assoc]

/-- The decoder has the data of a run of options before it decodes it. -/
theorem frDhcpv4DecodeOption_options (hzero : number ≠ 0) (hend : number ≠ 255) :
    frDhcpv4DecodeOption dict (options number data) =
      if data.length ≤ 255 then some ((options number data).length, decodeOption dict number data)
      else if data.length ≤ concatSize then
        (decodeConcat dict number data).map ((options number data).length, ·)
      else none := by
  split
  · next hle =>
    have hlen := toNat_ofNat_length hle
    rw [options, cut_of_le hle, flatMap_singleton, optionOf, frDhcpv4DecodeOption, if_neg hzero,
      if_neg hend]
    simp [hlen]
  next hlong =>
  obtain ⟨hflat, hall, hlen⟩ := cut_spec data
  have hne : data ≠ [] := fun h => hlong (by rw [h]; decide)
  obtain ⟨d, p, ps, hcut, hd⟩ : ∃ d p ps, cut 255 data = d :: p :: ps ∧ d.length = 255 := by
    rcases hcut : cut 255 data with _ | ⟨d, ps⟩
    · rw [hcut] at hflat; exact absurd hflat.symm hne
    have hpieces := pieces_cut (w := 255) (by decide) hne
    rw [hcut] at hpieces
    cases hpieces with
    | last _ hle => exact absurd hle hlong
    | @full _ rest _ hd h =>
      cases h with
      | last => exact ⟨d, _, _, rfl, hd⟩
      | full => exact ⟨d, _, _, rfl, hd⟩
  have hconcat : concatOptions number (options number data).length [] (options number data) =
      if data.length ≤ concatSize then some (data, []) else none := by
    rw [options, concatOptions_flatMap hall (by rw [length_flatMap_optionOf]; omega) (Nat.zero_le _),
      nil_append, hflat]
  have hout : options number data =
      number :: UInt8.ofNat d.length :: (d ++ (p :: ps).flatMap (optionOf number)) := by
    rw [options, hcut]
    rfl
  obtain ⟨out, hdef⟩ : ∃ out, out = options number data := ⟨_, rfl⟩
  have hhead : (List.drop 255 (d ++ (p :: ps).flatMap (optionOf number))).head? = some number := by
    rw [← hd, drop_left]
    rfl
  rw [← hdef] at hconcat hout ⊢
  have hdecode : frDhcpv4DecodeOption dict out =
      (concatOptions number out.length [] out).bind fun concat =>
        if concat.1 = [] then some (0, [])
        else (decodeConcat dict number concat.1).map (out.length - concat.2.length, ·) := by
    rw [hout, hd, frDhcpv4DecodeOption, if_neg hzero, if_neg hend]
    rw [if_neg (by simp [hd]), if_pos ⟨by decide, hhead⟩]
  rw [hdecode, hconcat]
  split
  · exact if_neg hne
  · rfl

end Join

section Tlvs

def wire (subs : List Sub) : List UInt8 := subs.flatMap fun sub => optionOf sub.number sub.value

/-- The sub-options that a joined sub-option is split into. -/
def splitSub (sub : Sub) : List Sub :=
  (cut 255 sub.value).map fun data => { sub with value := data }

/-- Both pairs have the same da. -/
def SameDa (a b : Sub) : Prop := a.raw = false ∧ b.raw = false ∧ a.number = b.number

variable {known : UInt8 → Bool} {subs : List Sub}

theorem decodeSubs_wire (h : ∀ sub ∈ subs, sub.value.length ≤ 255 ∧ sub.raw = !known sub.number)
    {rounds : ℕ} (hrounds : subs.length ≤ rounds) :
    decodeSubs known rounds (wire subs) = some subs := by
  induction subs generalizing rounds with
  | nil => cases rounds <;> rfl
  | cons sub subs ih =>
    obtain ⟨rounds, rfl⟩ : ∃ n, rounds = n + 1 := ⟨rounds - 1, by rw [length_cons] at hrounds; omega⟩
    obtain ⟨hle, hraw⟩ := h sub mem_cons_self
    have hlen := toNat_ofNat_length hle
    have hrest := ih (fun s hs => h s (mem_cons_of_mem _ hs)) (Nat.le_of_succ_le_succ hrounds)
    rw [wire, flatMap_cons, optionOf, cons_append, cons_append, decodeSubs, hlen, if_neg (by simp),
      take_left, drop_left, ← wire, hrest, ← hraw]
    rfl

theorem length_wire (subs : List Sub) :
    (wire subs).length = (subs.map (·.value.length + 2)).sum := by
  simp only [wire, optionOf, length_flatMap, length_cons]

theorem decodeTlvs_wire (h : ∀ sub ∈ subs, sub.value.length ≤ 255 ∧ sub.raw = !known sub.number) :
    decodeTlvs known (wire subs) = some subs := by
  have hlen := length_le_sum_of_one_le (subs.map (·.value.length + 2)) (by simp)
  rw [length_map, ← length_wire] at hlen
  exact decodeSubs_wire h hlen

theorem wire_flatMap_splitSub (subs : List Sub) :
    wire (subs.flatMap splitSub) = subs.flatMap fun sub => options sub.number sub.value := by
  simp [wire, splitSub, options, flatMap_assoc, flatMap_map]

theorem encodeChildren_eq {mem : List UInt8}
    (hroom : 2 * (subs.map (·.value.length + 1)).sum ≤ mem.length) :
    ∃ rest, encodeChildren mem subs = some (wire (subs.flatMap splitSub), rest) ∧
      (wire (subs.flatMap splitSub)).length + rest.length = mem.length ∧
      (wire (subs.flatMap splitSub)).length ≤ 2 * (subs.map (·.value.length + 1)).sum := by
  rw [wire_flatMap_splitSub]
  induction subs generalizing mem with
  | nil => exact ⟨mem, rfl, Nat.zero_add _, Nat.zero_le _⟩
  | cons sub subs ih =>
    rw [map_cons, sum_cons] at hroom
    obtain ⟨first, hfirst, hlen⟩ := @encodeRfc_eq sub.number sub.value mem (by omega)
    have hle := @length_options_le sub.number sub.value
    obtain ⟨rest, hrest, hsum, hbound⟩ := @ih first (by omega)
    rw [flatMap_cons, length_append, map_cons, sum_cons]
    refine ⟨rest, ?_, by omega, by omega⟩
    rw [encodeChildren, hfirst, Option.bind_some, hrest]
    rfl

theorem cut_eq_cons (data : List UInt8) : ∃ ps, cut 255 data = data.take 255 :: ps := by
  by_cases h : data.length ≤ 255
  · exact ⟨[], by rw [cut_of_le h, take_of_length_le h]⟩
  · obtain ⟨n, hn⟩ : ∃ n, data.length = n + 1 := ⟨data.length - 1, by omega⟩
    exact ⟨_, by rw [cut, hn, cutLoop, if_neg h]⟩

theorem splitSub_of_le {sub : Sub} (h : sub.value.length ≤ 255) : splitSub sub = [sub] := by
  rw [splitSub, cut_of_le h]
  rfl

theorem joinRuns_cons (sub : Sub) (subs : List Sub) :
    ∃ value rest, joinRuns (sub :: subs) = { sub with value } :: rest ∧
      sub.value.length ≤ value.length := by
  rw [joinRuns]
  cases joinRuns subs with
  | nil => exact ⟨_, _, rfl, le_rfl⟩
  | cons next rest =>
    dsimp only
    split
    · exact ⟨_, _, rfl, by simp⟩
    · exact ⟨_, _, rfl, le_rfl⟩

/-- What holds of single sub-options apart from their values holds of the joined ones. -/
theorem forall_joinRuns {P : UInt8 → Bool → Prop} (h : ∀ sub ∈ subs, P sub.number sub.raw) :
    ∀ sub ∈ joinRuns subs, P sub.number sub.raw := by
  induction subs with
  | nil => exact h
  | cons sub subs ih =>
    have hsub := h sub mem_cons_self
    have hrest := ih fun s hs => h s (mem_cons_of_mem _ hs)
    rw [joinRuns]
    cases hj : joinRuns subs with
    | nil => simpa using hsub
    | cons next rest =>
      rw [hj, forall_mem_cons] at hrest
      dsimp only
      split
      · exact forall_mem_cons.mpr ⟨hsub, hrest.2⟩
      · exact forall_mem_cons.mpr ⟨hsub, forall_mem_cons.mpr hrest⟩

theorem sum_joinRuns_le (subs : List Sub) :
    ((joinRuns subs).map (·.value.length + 1)).sum ≤ (subs.map (·.value.length + 1)).sum := by
  induction subs with
  | nil => exact le_rfl
  | cons sub subs ih =>
    rw [joinRuns]
    cases hj : joinRuns subs with
    | nil => simp
    | cons next rest =>
      rw [hj] at ih
      dsimp only
      split <;> simp at ih ⊢ <;> omega

/-- The sub-options come back if none has been joined: a joined one is longer than the first of its
parts. -/
theorem splitSub_joinRuns_iff (h : ∀ sub ∈ subs, 0 < sub.value.length ∧ sub.value.length ≤ 253) :
    (joinRuns subs).flatMap splitSub = subs ↔ subs.IsChain fun a b => ¬SameDa a b := by
  induction subs with
  | nil => simp [joinRuns]
  | cons sub subs ih =>
    have hsub := h sub mem_cons_self
    have hone : splitSub sub = [sub] := splitSub_of_le (by omega)
    rcases subs with _ | ⟨next, subs⟩
    · simp [joinRuns, hone]
    obtain ⟨value, rest, hj, hlen⟩ := joinRuns_cons next subs
    have hrest := ih fun s hs => h s (mem_cons_of_mem _ hs)
    have hnext := h next (mem_cons_of_mem _ mem_cons_self)
    rw [joinRuns, hj, isChain_cons_cons]
    dsimp only
    by_cases hsame : SameDa sub next
    · obtain ⟨hraw, hraw', hnumber⟩ := hsame
      refine iff_of_false (fun heq => ?_) fun hchain => hchain.1 ⟨hraw, hraw', hnumber⟩
      obtain ⟨ps, hps⟩ := cut_eq_cons (sub.value ++ value)
      rw [if_pos (by simp [hraw, hraw', hnumber]), flatMap_cons, splitSub, hps, map_cons,
        cons_append, List.cons.injEq] at heq
      have hvalue := congrArg (·.value.length) heq.1
      simp only [length_take, length_append] at hvalue
      omega
    · have hnot : ¬(!sub.raw && !next.raw && sub.number == next.number) = true := fun hcond => hsame (by
        simpa [SameDa, and_assoc] using hcond)
      rw [if_neg hnot, ← hj, flatMap_cons, hone, singleton_append, List.cons.injEq, hrest]
      simp [hsame]

end Tlvs

section RoundTrip

variable {undef : UInt32} {dict : UInt8 → Option DaType} {rounds : ℕ} {mem : List UInt8} {number : UInt8}

/-- The option is written as a run of options with a right length each, and the decoder reads all of
them and returns the same pair. -/
def OptionRoundTrips (undef : UInt32) (dict : UInt8 → Option DaType) (rounds : ℕ) (mem : List UInt8)
    (number : UInt8) (pair : Pair) : Prop :=
  ∃ (out rest : List UInt8) (pieces : List (List UInt8)),
    frDhcpv4EncodeOption undef dict rounds mem pair = some (some (out, rest)) ∧
    out = pieces.flatMap (optionOf number) ∧ (∀ d ∈ pieces, d.length ≤ 255) ∧
    frDhcpv4DecodeOption dict out = some (out.length, [pair])

/-- The type of a value that is not structural. -/
def DaType.IsLeaf (type : DaType) : Prop :=
  (∀ known, type ≠ .tlv known) ∧ ∀ knownVendor known, type ≠ .vsa knownVendor known

theorem optionRoundTrips_value_iff {type : DaType} (hdict : dict number = some type)
    (hleaf : type.IsLeaf) (hzero : number ≠ 0) (hend : number ≠ 255) {value : Value}
    {data : List UInt8} (hdata : encodeValue undef type value = data)
    (hlen : data.length ≤ concatSize) (hroom : 2 * data.length + 2 ≤ mem.length) :
    OptionRoundTrips undef dict rounds mem number (.value number value) ↔
      decodeValue number type data = .value number value := by
  obtain ⟨rest, hrest, -⟩ := @encodeRfc_eq number data mem hroom
  have hencode : frDhcpv4EncodeOption undef dict rounds mem (.value number value) =
      some (some (options number data, rest)) := by
    rw [frDhcpv4EncodeOption, hdict, Option.bind_some, hdata, hrest]
  have hdecode : frDhcpv4DecodeOption dict (options number data) =
      some ((options number data).length, [decodeValue number type data]) := by
    rw [frDhcpv4DecodeOption_options hzero hend, decodeOption, decodeConcat, hdict]
    cases type with
    | tlv known => exact absurd rfl (hleaf.1 known)
    | vsa knownVendor known => exact absurd rfl (hleaf.2 knownVendor known)
    | _ => simp [if_pos hlen]
  constructor
  · rintro ⟨out, rest', pieces, hout, -, -, hdecoded⟩
    rw [hencode] at hout
    cases hout
    rw [hdecode] at hdecoded
    simpa using hdecoded
  · intro heq
    exact ⟨_, rest, cut 255 data, hencode, rfl, (cut_spec _).2.1, by rw [hdecode, heq]⟩

variable {subs : List Sub} {known : UInt8 → Bool}

theorem encodeTlv_eq (hroom : 4 * (subs.map (·.value.length + 1)).sum + 2 ≤ mem.length) :
    ∃ rest, encodeTlv mem number subs =
      some (options number (wire ((joinRuns subs).flatMap splitSub)), rest) := by
  have hsum := sum_joinRuns_le subs
  have hdrop : (mem.drop 2).length = mem.length - 2 := length_drop
  obtain ⟨behind, hchildren, hlen, hbound⟩ := @encodeChildren_eq (joinRuns subs) (mem.drop 2) (by omega)
  obtain ⟨rest, hrest, -⟩ := @writeLen_eq number _ behind
    (show 2 * (wire ((joinRuns subs).flatMap splitSub)).length + 2 ≤ _ by omega)
  rw [encodeTlv, if_neg (by omega)]
  split
  · next hshort =>
    obtain rfl : subs = [] := by
      cases subs with
      | nil => rfl
      | cons sub subs => rw [map_cons, sum_cons] at hroom; omega
    exact ⟨_, rfl⟩
  · rw [hchildren, Option.bind_some, hrest]
    exact ⟨rest, rfl⟩

theorem decode_tlv (hdict : dict number = some (.tlv known)) (hzero : number ≠ 0)
    (hend : number ≠ 255) (h : ∀ sub ∈ subs, sub.value.length ≤ 255 ∧ sub.raw = !known sub.number) :
    frDhcpv4DecodeOption dict (options number (wire subs)) =
      if (wire subs).length ≤ concatSize then
        some ((options number (wire subs)).length, [.tlv number subs])
      else none := by
  rw [frDhcpv4DecodeOption_options hzero hend, decodeOption, decodeConcat, hdict, concatSize]
  simp only [decodeTlvs_wire h, Option.map_some]
  split
  · rw [if_pos (by omega)]
  · rfl

theorem optionRoundTrips_tlv (hdict : dict number = some (.tlv known)) (hzero : number ≠ 0)
    (hend : number ≠ 255)
    (hsubs : ∀ sub ∈ subs, (0 < sub.value.length ∧ sub.value.length ≤ 253) ∧ sub.raw = !known sub.number)
    (hroom : 4 * (subs.map (·.value.length + 1)).sum + 2 ≤ mem.length) :
    OptionRoundTrips undef dict rounds mem number (.tlv number subs) ↔
      (subs.IsChain fun a b => ¬SameDa a b) ∧ (subs.map (·.value.length + 2)).sum ≤ concatSize := by
  obtain ⟨joined, hjoined⟩ : ∃ joined, joined = (joinRuns subs).flatMap splitSub := ⟨_, rfl⟩
  obtain ⟨rest, hencode⟩ := @encodeTlv_eq mem number subs hroom
  have hiff := splitSub_joinRuns_iff fun s hs => (hsubs s hs).1
  rw [← hjoined] at hencode hiff
  have hwire : ∀ sub ∈ joined, sub.value.length ≤ 255 ∧ sub.raw = !known sub.number := by
    intro sub hsub
    rw [hjoined, mem_flatMap] at hsub
    obtain ⟨s, hs, hsub⟩ := hsub
    obtain ⟨d, hd, rfl⟩ := mem_map.mp hsub
    exact ⟨(cut_spec s.value).2.1 d hd,
      forall_joinRuns (P := fun number raw => raw = !known number) (fun s hs => (hsubs s hs).2) s hs⟩
  have hdecode := decode_tlv hdict hzero hend hwire
  rw [← hiff, ← length_wire]
  constructor
  · rintro ⟨out, rest', pieces, hout, -, -, hdecoded⟩
    rw [frDhcpv4EncodeOption, hencode] at hout
    cases hout
    rw [hdecode] at hdecoded
    split at hdecoded
    · next hle =>
      cases hdecoded
      exact ⟨rfl, hle⟩
    · cases hdecoded
  · rintro ⟨rfl, hle⟩
    refine ⟨_, rest, cut 255 (wire joined), ?_, rfl, (cut_spec _).2.1, ?_⟩
    · rw [frDhcpv4EncodeOption, hencode, options]
    · rw [← options, hdecode, if_pos hle]

/-- An octets or string option goes through the encoder and the decoder. A TLV does if and only if
none of its sub-options has the same da as the one before it, and the decoder's buffer holds them. -/
theorem dhcpv4Option_roundTrip_iff (undef : UInt32) (dict : UInt8 → Option DaType) (rounds : ℕ)
    (mem : List UInt8) {number : UInt8} (hzero : number ≠ 0) (hend : number ≠ 255) :
    (∀ type value, dict number = some type → type = .octets ∨ type = .string →
      value.length ≤ 1400 → 2 * value.length + 2 ≤ mem.length →
      OptionRoundTrips undef dict rounds mem number (.value number (.bytes value))) ∧
    ∀ known subs, dict number = some (.tlv known) →
      (∀ sub ∈ subs, (0 < sub.value.length ∧ sub.value.length ≤ 253) ∧ sub.raw = !known sub.number) →
      4 * (subs.map (·.value.length + 1)).sum + 2 ≤ mem.length →
      (OptionRoundTrips undef dict rounds mem number (.tlv number subs) ↔
        (subs.IsChain fun a b => ¬SameDa a b) ∧ (subs.map (·.value.length + 2)).sum ≤ concatSize) := by
  constructor
  · intro type value hdict htype hlen hroom
    have hleaf : type.IsLeaf := by
      rcases htype with rfl | rfl <;> exact ⟨by simp, by simp⟩
    have hdata : encodeValue undef type (.bytes value) = value := by
      rcases htype with rfl | rfl <;> rfl
    rw [optionRoundTrips_value_iff hdict hleaf hzero hend hdata (hlen.trans (by decide)) hroom]
    rcases htype with rfl | rfl <;> rfl
  · intro known subs hdict hsubs hroom
    exact optionRoundTrips_tlv hdict hzero hend hsubs hroom

def sampleDict (number : UInt8) : Option DaType :=
  if number = 82 then some (.tlv fun _ => true) else some .octets

/-- Sub-options of 407 bytes, in two options -/
theorem dhcpv4Option_roundTrip_two :
    OptionRoundTrips 0 sampleDict 0 (replicate 2048 0) 82 (.tlv 82 [⟨1, replicate 200 7, false⟩,
      ⟨2, replicate 200 8, false⟩, ⟨1, [9], false⟩]) := by
  refine ((dhcpv4Option_roundTrip_iff 0 sampleDict 0 _ (by decide) (by decide)).2 _ _ rfl ?_
    ?_).mpr ⟨by simp only [isChain_cons_cons, SameDa]; decide, ?_⟩
  · simp only [mem_cons, forall_eq_or_imp, length_replicate, not_mem_nil, false_imp_iff,
      forall_true_iff]
    decide
  all_goals
    simp only [map_cons, map_nil, length_replicate]
    decide

/-- Two sub-options with the number 1 are written as one. -/
theorem dhcpv4Option_joined :
    frDhcpv4EncodeOption 0 sampleDict 0 (replicate 32 0)
        (.tlv 82 [⟨1, [7], false⟩, ⟨1, [8], false⟩]) =
      some (some ([82, 4, 1, 2, 7, 8], replicate 26 0)) ∧
    frDhcpv4DecodeOption sampleDict [82, 4, 1, 2, 7, 8] =
      some (6, [.tlv 82 [⟨1, [7, 8], false⟩]]) ∧
    ¬OptionRoundTrips 0 sampleDict 0 (replicate 32 0) 82
      (.tlv 82 [⟨1, [7], false⟩, ⟨1, [8], false⟩]) := by
  have hencode : frDhcpv4EncodeOption 0 sampleDict 0 (replicate 32 0)
      (.tlv 82 [⟨1, [7], false⟩, ⟨1, [8], false⟩]) =
        some (some ([82, 4, 1, 2, 7, 8], replicate 26 0)) := by decide
  have hdecode : frDhcpv4DecodeOption sampleDict [82, 4, 1, 2, 7, 8] =
      some (6, [.tlv 82 [⟨1, [7, 8], false⟩]]) := by decide
  refine ⟨hencode, hdecode, ?_⟩
  rintro ⟨out, rest, pieces, hout, -, -, hdecoded⟩
  rw [hencode] at hout
  cases hout
  rw [hdecode] at hdecoded
  cases hdecoded

end RoundTrip

end FreeRadius.Dhcpv4
