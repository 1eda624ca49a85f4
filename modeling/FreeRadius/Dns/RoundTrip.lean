import FreeRadius.Dns.Names

/-!
# Names through the encoder and the decoder

The decoder reads the labels that were written without compression one after the
other. It returns the name that was encoded, unless the name has one character, which
it takes for the root.
-/

namespace FreeRadius.Dns

open Library List

section Length

theorem invalidCharacter_none {l : List UInt8} (hl : ∀ x ∈ l, isLabelChar x = true) (q : ℕ) :
    invalidCharacter l q = none := by
  induction l generalizing q with
  | nil => rfl
  | cons c l ih =>
    rw [invalidCharacter, if_pos (hl c mem_cons_self)]
    exact ih (fun x hx => hl x (mem_cons_of_mem _ hx)) _

theorem verifyLabel_label (l : Label) (q : ℕ) : verifyLabel l.val q = none := by
  obtain ⟨c, rest, hl, hc, hrest, -⟩ := l.cases
  rw [hl, verifyLabel]
  split
  · exact invalidCharacter_none hrest _
  next hne =>
    exact invalidCharacter_none (forall_mem_cons.mpr ⟨hc.resolve_left hne, hrest⟩) _

variable {start current rounds length : ℕ}

theorem uncompressedLengthLoop_label (l : Label) (pre post : List UInt8) (first : Bool)
    (next : Option ℕ) (hlength : (if first then length else length + 1) + l.val.length ≤ 255) :
    uncompressedLengthLoop (pre ++ fields [l] ++ post) start (rounds + 1) pre.length current length
        first next =
      uncompressedLengthLoop (pre ++ fields [l] ++ post) start rounds (pre ++ fields [l]).length
        current ((if first then length else length + 1) + l.val.length) false next := by
  have hlen := length_label l pre post
  have hpos := l.length_pos
  have hnext : (pre ++ fields [l]).length = pre.length + l.val.length + 1 := by
    simp [Nat.add_assoc]
  rw [uncompressedLengthLoop, if_neg (by omega), byte_label, if_neg l.byte_pos, if_neg (by omega),
    if_neg fun h => l.byte_le h.1, if_neg l.byte_le]
  simp only [l.toNat_length, slice_label, verifyLabel_label, hnext]
  rw [if_neg (by omega), if_neg (by omega)]

theorem byte_wire_nil (pre post : List UInt8) : byte (pre ++ wire [] ++ post) pre.length = 0 := by
  rw [append_assoc]
  exact byte_append_cons ..

theorem append_wire_cons (l : Label) (ls : List Label) (pre post : List UInt8) :
    pre ++ wire (l :: ls) ++ post = pre ++ fields [l] ++ (wire ls ++ post) := by
  simp [wire]

/-- The labels of a name to the end of label byte. -/
theorem uncompressedLengthLoop_wire (labels : List Label) (pre post : List UInt8)
    (hlength : length + (dotted labels).length ≤ 255) (hrounds : labels.length < rounds) :
    uncompressedLengthLoop (pre ++ wire labels ++ post) start rounds pre.length start length false
        none =
      .ok (length + (dotted labels).length, pre.length + (wire labels).length) := by
  induction labels generalizing pre length rounds with
  | nil =>
    obtain ⟨rounds, rfl⟩ := Nat.exists_eq_succ_of_ne_zero (Nat.ne_of_gt hrounds)
    rw [uncompressedLengthLoop, if_neg (by simp [wire]), if_pos (byte_wire_nil pre post), if_pos rfl]
    rfl
  | cons l ls ih =>
    obtain ⟨rounds, rfl⟩ := Nat.exists_eq_succ_of_ne_zero (Nat.ne_of_gt (Nat.zero_lt_of_lt hrounds))
    simp only [dotted_cons, length_append, length_cons] at hlength
    rw [append_wire_cons, uncompressedLengthLoop_label _ _ _ _ _ (by simp; omega), ← append_assoc,
      ih (pre ++ fields [l]) (by simp; omega) (Nat.lt_of_succ_lt_succ hrounds)]
    simp only [Bool.false_eq_true, if_false, wire, fields_cons, fields_nil, dotted_cons,
      length_append, length_cons, length_nil, Except.ok.injEq, Prod.mk.injEq]
    omega

theorem length_le_dotted (labels : List Label) : labels.length ≤ (dotted labels).length := by
  induction labels with
  | nil => exact Nat.le_refl _
  | cons l ls ih =>
    rw [dotted_cons, length_append, length_cons, length_cons]
    omega

/-- The length of a name is the length of its text. -/
theorem frDnsLabelUncompressedLength_wire (name : Name) (pre post : List UInt8)
    (hlength : name.text.length ≤ 255) :
    frDnsLabelUncompressedLength (pre ++ wire name.labels ++ post) pre.length =
      .ok (name.text.length, pre.length + (wire name.labels).length) := by
  have htext := name.length_text
  have hrest := length_le_dotted name.rest
  have hwire := name.length_wire
  rw [frDnsLabelUncompressedLength, if_neg, Name.labels, append_wire_cons, uncompressedRounds,
    uncompressedLengthLoop_label _ _ _ _ _ (by simp; omega), ← append_assoc,
    uncompressedLengthLoop_wire _ _ _ (by simp; omega) (by omega)]
  · simp only [if_true, wire, fields_cons, fields_nil, length_append, length_cons,
      length_nil, Except.ok.injEq, Prod.mk.injEq]
    omega
  · simp only [length_append]
    omega

end Length

section Copy

theorem dnsLabelDecode_label (l : Label) (pre post : List UInt8) (next : Option ℕ) :
    dnsLabelDecode (pre ++ fields [l] ++ post) pre.length next =
      ((l.val.length : ℤ), pre.length, some (pre ++ fields [l]).length) := by
  have hlen := length_label l pre post
  have hnext : (pre ++ fields [l]).length = pre.length + l.val.length + 1 := by
    simp [Nat.add_assoc]
  have hle : ¬(0xc0 : UInt8) ≤ UInt8.ofNat l.val.length := by
    have := l.length_le
    rw [UInt8.le_iff_toNat_le, l.toNat_length]
    change ¬192 ≤ l.val.length
    omega
  rw [dnsLabelDecode, if_neg (ne_nil_of_length_pos (by omega)), byte_label, if_neg l.byte_pos]
  simp only [if_neg hle, byte_label, if_neg l.byte_le, l.toNat_length, hnext]
  rw [if_neg (by omega)]

variable {after size rounds : ℕ}

theorem toValueBoxLoop_label (l : Label) (pre post out : List UInt8) (next : Option ℕ)
    (hafter : pre.length < after) (hsize : out.length + l.val.length ≤ size) :
    toValueBoxLoop (pre ++ fields [l] ++ post) after size (rounds + 1) (some pre.length) next out =
      toValueBoxLoop (pre ++ fields [l] ++ post) after size rounds (some (pre ++ fields [l]).length)
        (some (pre ++ fields [l]).length) ((if out = [] then out else out ++ [dot]) ++ l.val) := by
  rw [toValueBoxLoop]
  simp only [byte_label]
  rw [if_pos ⟨hafter, l.byte_pos⟩, dnsLabelDecode_label]
  simp only [Int.toNat_natCast, slice_label]
  rw [if_neg (by omega), if_neg (by omega)]

theorem length_wire_cons (l : Label) (ls : List Label) (pre : List UInt8) :
    pre.length + (wire (l :: ls)).length = (pre ++ fields [l]).length + (wire ls).length := by
  simp only [wire, fields_cons, fields_nil, List.length_append, List.length_cons, List.length_nil]
  omega

theorem toValueBoxLoop_wire (labels : List Label) (pre post out : List UInt8) (next : Option ℕ)
    (hout : out ≠ []) (hrounds : labels.length < rounds) :
    toValueBoxLoop (pre ++ wire labels ++ post) (pre.length + (wire labels).length)
        (out ++ dotted labels).length rounds (some pre.length) next out =
      .ok (out ++ dotted labels) := by
  induction labels generalizing pre out next rounds with
  | nil =>
    obtain ⟨rounds, rfl⟩ := Nat.exists_eq_succ_of_ne_zero (Nat.ne_of_gt hrounds)
    rw [toValueBoxLoop]
    simp only [byte_wire_nil, ne_eq, not_true_eq_false, and_false, if_false, dotted_nil, List.append_nil]
  | cons l ls ih =>
    obtain ⟨rounds, rfl⟩ := Nat.exists_eq_succ_of_ne_zero (Nat.ne_of_gt (Nat.zero_lt_of_lt hrounds))
    have hvalue : out ++ dotted (l :: ls) = out ++ [dot] ++ l.val ++ dotted ls := by simp
    have hone : (pre ++ fields [l]).length = pre.length + l.val.length + 1 := by
      simp [Nat.add_assoc]
    rw [append_wire_cons, length_wire_cons, toValueBoxLoop_label _ _ _ _ _ (by omega) (by
      rw [hvalue]
      simp only [List.length_append]
      omega), ← List.append_assoc, if_neg hout, hvalue]
    exact ih _ _ _ (by simp) (Nat.lt_of_succ_lt_succ hrounds)

/-- The decoder returns a name of two or more characters. -/
theorem frDnsLabelToValueBox_wire (name : Name) (pre post : List UInt8)
    (hlength : name.text.length ≤ 255) :
    frDnsLabelToValueBox (pre ++ wire name.labels ++ post) pre.length =
      .ok (if name.text.length = 1 then [dot] else name.text, (wire name.labels).length) := by
  have hwire := name.length_wire
  have htext := name.length_text
  have hrest := length_le_dotted name.rest
  have hfirst := name.first.length_pos
  have hlen : (pre ++ wire name.labels ++ post).length =
      pre.length + (wire name.labels).length + post.length := by
    simp only [List.length_append]
  have hloop : toValueBoxLoop (pre ++ wire name.labels ++ post)
      (pre.length + (wire name.labels).length) name.text.length (name.text.length + 1)
      (some pre.length) none [] = .ok name.text := by
    have hafter := length_wire_cons name.first name.rest pre
    rw [Name.labels] at hwire ⊢
    rw [append_wire_cons, toValueBoxLoop_label _ _ _ _ _ (by omega) (by
      rw [List.length_nil]
      omega), ← List.append_assoc, if_pos rfl, hafter]
    exact toValueBoxLoop_wire _ _ _ _ _ (List.ne_nil_of_length_pos hfirst) (by omega)
  rw [frDnsLabelToValueBox, if_neg (List.ne_nil_of_length_pos (by omega)), if_neg (by omega),
    frDnsLabelUncompressedLength_wire name pre post hlength]
  simp only [bind, Except.bind, Nat.add_sub_cancel_left, hloop]
  split <;> rfl

end Copy

section RoundTrip

variable {name : Name} {t buf : List UInt8} {pos len : ℕ}

/-- The decoder finds the name that was written into a buffer. -/
theorem frDnsLabelToValueBox_written (hlength : name.text.length ≤ 255)
    (hfits : pos + name.text.length + 2 ≤ buf.length)
    (hlen : pos + (wire name.labels).length ≤ len) :
    frDnsLabelToValueBox ((splice buf pos (wire name.labels)).take len) pos =
      .ok (if name.text.length = 1 then [dot] else name.text, (wire name.labels).length) := by
  have hpos : (buf.take pos).length = pos := by
    rw [length_take]
    omega
  have h := frDnsLabelToValueBox_wire name (buf.take pos)
    ((buf.drop (pos + (wire name.labels).length)).take (len - (buf.take pos ++ wire name.labels).length))
    hlength
  rw [hpos] at h
  rw [splice, take_append, take_of_length_le (by rw [length_append]; omega)]
  exact h

/-- The name is encoded without compression, and decoding it from the buffer, or from
a part of it that has the bytes written, returns the name and consumes these bytes. -/
def RoundTrips (name : Name) (t buf : List UInt8) (pos : ℕ) : Prop :=
  ∃ buf' n, frDnsLabelFromValueBox buf pos false (name.text ++ t) = .ok (.written buf' n) ∧
    ∀ len, pos + n ≤ len → frDnsLabelToValueBox (buf'.take len) pos = .ok (name.text, n)

/-- A label of 63 characters behind a dot is an error. -/
theorem RoundTrips.encodable (h : RoundTrips name t buf pos) (ht : EndDot t)
    (hpos : pos < buf.length) : name.Encodable := by
  obtain ⟨buf', n, hfrom, -⟩ := h
  by_contra hlong
  rw [frDnsLabelFromValueBox, if_neg (ne_nil_of_length_pos (by omega)), if_neg (by omega),
    if_neg (name.text_ne_root t), if_neg (name.head_ne_dot t), checkName_text name ht, if_neg hlong]
    at hfrom
  cases hfrom

/-- A name of one character is decoded as the root. -/
theorem RoundTrips.two_le (h : RoundTrips name t buf pos) (ht : EndDot t)
    (hlength : name.text.length ≤ 253) (hfits : pos + name.text.length + 2 ≤ buf.length) :
    2 ≤ name.text.length := by
  have hencodable := h.encodable ht (by omega)
  have hpos := name.length_pos
  obtain ⟨buf', n, hfrom, hto⟩ := h
  rw [frDnsLabelFromValueBox_text name ht hencodable hfits, if_neg (by simp)] at hfrom
  cases hfrom
  have hdecoded := hto _ (Nat.le_refl _)
  rw [frDnsLabelToValueBox_written (by omega) hfits (Nat.le_refl _)] at hdecoded
  by_contra hone
  rw [if_pos (by omega)] at hdecoded
  have hdot : [dot] = name.text := congrArg Prod.fst (Except.ok.inj hdecoded)
  exact name.text_ne_root [] (.inr (by rw [append_nil, hdot]))

/-- A name round-trips exactly if it has two characters or more, and if the labels
behind a dot have 62 characters at the most. -/
theorem roundTrips_iff (name : Name) (t buf : List UInt8) (pos : ℕ) (ht : EndDot t)
    (hlength : name.text.length ≤ 253) (hfits : pos + name.text.length + 2 ≤ buf.length) :
    RoundTrips name t buf pos ↔ 2 ≤ name.text.length ∧ ∀ l ∈ name.rest, l.val.length ≤ 62 := by
  refine ⟨fun h => ⟨h.two_le ht hlength hfits, h.encodable ht (by omega)⟩, fun ⟨htwo, hencodable⟩ => ?_⟩
  refine ⟨splice buf pos (wire name.labels), (wire name.labels).length, ?_, fun len hlen => ?_⟩
  · rw [frDnsLabelFromValueBox_text name ht hencodable hfits, if_neg (by simp)]
  · rw [frDnsLabelToValueBox_written (by omega) hfits hlen, if_neg (by omega)]

def shortName : Name where
  first := ⟨[0x61], rfl⟩
  rest := [⟨[0x62], rfl⟩]

theorem roundTrips_shortName : RoundTrips shortName [dot] (replicate 8 0) 1 :=
  (roundTrips_iff shortName [dot] (replicate 8 0) 1 (.inr rfl) (by decide) (by decide)).mpr
    (by decide)

/-- A name with the label `a` alone, and one with 63 characters behind a dot. -/
theorem not_roundTrips :
    ¬RoundTrips ⟨⟨[0x61], rfl⟩, []⟩ [] (replicate 3 0) 0 ∧
      ¬RoundTrips ⟨⟨[0x61], rfl⟩, [⟨replicate 63 0x62, by decide⟩]⟩ []
        (replicate 80 0) 0 := by
  constructor
  · intro h
    exact absurd (h.two_le (.inl rfl) (by decide) (by decide)) (by decide)
  · intro h
    exact absurd (h.encodable (.inl rfl) (by decide)) (by decide)

end RoundTrip

end FreeRadius.Dns
