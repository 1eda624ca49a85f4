import FreeRadius.Dns.Compression

/-!
# Names one behind the other

Calls with compression fill a buffer. The bytes that a call leaves are read as the
name that it was given, if no label at offset 2¹⁴ is referred to: a pointer to that
offset does not fit into its 14 bits.
-/

namespace FreeRadius.Dns

open Library List

section Runs

/-- The buffer after calls that write one name behind the other, with compression. -/
inductive Filled : List UInt8 → ℕ → Prop
  | empty (buf : List UInt8) : Filled buf 0
  | call {buf buf' value : List UInt8} {used n : ℕ} (h : Filled buf used)
      (hcall : frDnsLabelFromValueBox buf used true value = .ok (.written buf' n)) :
      Filled buf' (used + n)

variable {P Q buf buf' : List UInt8} {labels : List Label} {used n : ℕ}

/-- The names in the buffer with one more name, compressed or not. -/
def Appended (P : List UInt8) (labels : List Label) (Q : List UInt8) : Prop :=
  Q = P ++ wire labels ∨
    ∃ B C o, labels = B ++ C ∧ C ≠ [] ∧ Q = P ++ fields B ++ pointerBytes o ∧ o < P.length ∧
      (¬AtLimit P labels → Reads P o C)

theorem Appended.ended (h : Appended P labels Q) : Ended Q := by
  rcases h with rfl | ⟨B, C, o, -, -, rfl, -⟩
  · exact .inr (.inl ⟨P ++ fields labels, by rw [wire, append_assoc]⟩)
  · exact .inr (.inr ⟨P ++ fields B, _, _, rfl, or_pointer _⟩)

variable {name : Name} {t Y : List UInt8} {compression : Bool} {rest : List (List UInt8)}

/-- A call that writes a name was given one that passes the check and that fits. -/
theorem encodable_of_call (ht : EndDot t)
    (h : frDnsLabelFromValueBox buf used compression (name.text ++ t) = .ok (.written buf' n)) :
    name.Encodable ∧ used + name.text.length + 2 ≤ buf.length := by
  unfold frDnsLabelFromValueBox at h
  split at h
  · cases h
  split at h
  · cases h
  rw [if_neg (name.text_ne_root t), if_neg (name.head_ne_dot t), checkName_text name ht] at h
  split at h
  next hencodable =>
    refine ⟨hencodable, ?_⟩
    by_contra hfits
    simp only [bind, Except.bind, if_pos (Nat.not_le.mp hfits)] at h
    cases h
  · cases h

theorem appended_of_call (ht : EndDot t) (hended : Ended (buf.take used))
    (hcall : frDnsLabelFromValueBox buf used true (name.text ++ t) = .ok (.written buf' n)) :
    ∃ Q post, buf' = Q ++ post ∧ used + n = Q.length ∧
      Appended (buf.take used) name.labels Q := by
  obtain ⟨hencodable, hfits⟩ := encodable_of_call ht hcall
  have hused : (buf.take used).length = used := by
    rw [length_take]
    omega
  have hplain : splice buf used (wire name.labels) =
      buf.take used ++ wire name.labels ++ buf.drop (used + (wire name.labels).length) := rfl
  rw [frDnsLabelFromValueBox_text name ht hencodable hfits] at hcall
  split at hcall
  next hcompress =>
    rcases hresult : dnsLabelCompress 0 used buf.length (splice buf used (wire name.labels)) none
        used with _ | c
    · rw [hresult] at hcall
      cases hcall
      exact ⟨_, _, hplain, by rw [length_append, hused], .inl rfl⟩
    rw [hresult] at hcall
    cases hcall
    have hshort : dnsLabelCompress 0 (buf.take used).length buf.length (buf.take used ++ (fields [] ++
        (wire name.labels ++ buf.drop (used + (wire name.labels).length)))) none
        ((buf.take used).length + (fields []).length) = some c := by
      rw [fields_nil, nil_append, length_nil, ← append_assoc, hused]
      exact hresult
    obtain ⟨B, C, o, post, hsplit, hC, hbuf, hend, ho, hreads⟩ :=
      dnsLabelCompress_shortened hended hshort
    refine ⟨buf.take used ++ fields B ++ pointerBytes o, post, ?_, ?_,
      .inr ⟨B, C, o, hsplit, hC, rfl, ho, hreads⟩⟩
    · rw [hbuf, nil_append]
      simp
    · rw [hend, hused, nil_append, length_append, length_append, hused]
      change used + (used + (fields B).length + 2 - used) = used + (fields B).length + 2
      omega
  · cases hcall
    exact ⟨_, _, hplain, by rw [length_append, hused], .inl rfl⟩

theorem written_cases {value : List UInt8}
    (h : frDnsLabelFromValueBox buf used compression value = .ok (.written buf' n)) :
    (used < buf.length ∧ buf' = buf.set used 0 ∧ n = 1) ∨
      ∃ (name : Name) (t : List UInt8), value = name.text ++ t ∧ EndDot t := by
  unfold frDnsLabelFromValueBox at h
  split at h
  · cases h
  split at h
  · cases h
  next hpos =>
  split at h
  · cases h
    exact .inl ⟨Nat.not_le.mp hpos, rfl, rfl⟩
  next hroot =>
  split at h
  · cases h
  next hhead =>
  rcases hcheck : checkName value true 0 with e | strend
  · rw [hcheck] at h
    cases h
  · obtain ⟨l, labels, t, hvalue, -, -, ht, -⟩ :=
      (rest_of_checkName (Nat.zero_le 63)).2 (fun hnil => hroot (.inl hnil)) hhead hcheck
    exact .inr ⟨⟨l, labels⟩, t, hvalue, ht⟩

/-- The buffer ends as names do, after any calls. -/
theorem Filled.ended (h : Filled buf used) : used ≤ buf.length ∧ Ended (buf.take used) := by
  induction h with
  | empty buf => exact ⟨Nat.zero_le _, .inl rfl⟩
  | @call buf buf' value used n h hcall ih =>
    rcases written_cases hcall with ⟨hpos, rfl, rfl⟩ | ⟨name, t, rfl, ht⟩
    · refine ⟨by rw [length_set]; omega, .inr (.inl ⟨buf.take used, ?_⟩)⟩
      rw [take_succ_eq_append_getElem (by rw [length_set]; omega), take_set_of_le (by omega),
        getElem_set_self]
    · obtain ⟨Q, post, rfl, hlen, happended⟩ := appended_of_call ht ih.2 hcall
      rw [hlen, take_left]
      exact ⟨by rw [length_append]; omega, happended.ended⟩

theorem denotes_label {l : Label}
    (h : Denotes (P ++ fields [l] ++ Y) (P ++ fields [l]).length rest) :
    Denotes (P ++ fields [l] ++ Y) P.length (l.val :: rest) := by
  have hbyte := byte_label l P Y
  have hnat : (byte (P ++ fields [l] ++ Y) P.length).toNat = l.val.length := by
    rw [hbyte, l.toNat_length]
  have hnext : (P ++ fields [l]).length = P.length + l.val.length + 1 := by
    simp [Nat.add_assoc]
  have hlen : (P ++ fields [l]).length ≤ (P ++ fields [l] ++ Y).length :=
    (prefix_append _ Y).length_le
  rw [hnext, ← hnat] at h hlen
  have hdenotes := Denotes.label (hbyte ▸ l.byte_pos) (hbyte ▸ l.byte_le) hlen h
  rwa [hnat, slice_label] at hdenotes

theorem denotes_fields (B : List Label)
    (h : Denotes (P ++ fields B ++ Y) (P ++ fields B).length rest) :
    Denotes (P ++ fields B ++ Y) P.length (B.map (·.val) ++ rest) := by
  induction B generalizing P with
  | nil =>
    rw [fields_nil, append_nil] at h ⊢
    exact h
  | cons b B ih =>
    have hsplit : P ++ fields (b :: B) = P ++ fields [b] ++ fields B := by
      rw [append_assoc, ← fields_append]
      rfl
    rw [hsplit] at h ⊢
    have hrest := ih h
    rw [append_assoc] at hrest ⊢
    exact denotes_label hrest

theorem denotes_wire (labels : List Label) :
    Denotes (P ++ wire labels) P.length (labels.map (·.val)) := by
  have hroot : Denotes (P ++ fields labels ++ [0]) (P ++ fields labels).length [] :=
    .root (by simp) (byte_append_cons ..)
  have h := denotes_fields labels hroot
  rwa [append_nil, append_assoc] at h

theorem denotes_splice (h : used ≤ buf.length) (labels : List Label) :
    Denotes ((splice buf used (wire labels)).take (used + (wire labels).length)) used
      (labels.map (·.val)) := by
  have hused : (buf.take used).length = used := by
    rw [length_take]
    omega
  have hdenotes := denotes_wire (P := buf.take used) labels
  rw [splice, take_left' (by rw [length_append, hused])]
  rwa [hused] at hdenotes

/-- What was appended is read as the name. -/
theorem Appended.denotes (h : Appended P labels Q) (hlimit : ¬AtLimit P labels) :
    ∃ found, Denotes Q P.length found ∧ SameName found (labels.map (·.val)) := by
  rcases h with rfl | ⟨B, C, o, rfl, -, rfl, ho, hreads⟩
  · exact ⟨_, denotes_wire labels, rfl⟩
  obtain ⟨hlt, found, hfound, hsame⟩ := hreads hlimit
  refine ⟨B.map (·.val) ++ found, denotes_fields B (.pointer ?_ ?_ ?_), ?_⟩
  · simp only [length_append]
    exact Nat.lt_succ_self _
  · rw [pointerBytes, byte_append_cons]
    exact or_pointer _
  · rw [pointerBytes, byte_append_cons, byte_append_right]
    change Denotes _ (pointerOffset _ (UInt8.ofNat (o % 256))) found
    rw [pointerOffset_bytes hlt]
    exact (hfound.append _).append _
  · rw [SameName, map_append, map_append, map_append, hsame]

/-- The bytes of a name, of which a pointer to an earlier offset may replace the last
labels. -/
def PointsBack (labels : List Label) (used : ℕ) (bytes : List UInt8) : Prop :=
  bytes = wire labels ∨ ∃ B C a b, labels = B ++ C ∧ bytes = fields B ++ [a, b] ∧ 0xc0 ≤ a ∧
    pointerOffset a b < used

theorem Appended.pointsBack (h : Appended P labels Q) (hlimit : ¬AtLimit P labels) :
    ∃ bytes, Q = P ++ bytes ∧ PointsBack labels P.length bytes := by
  rcases h with rfl | ⟨B, C, o, rfl, -, rfl, ho, hreads⟩
  · exact ⟨_, rfl, .inl rfl⟩
  · refine ⟨_, append_assoc .., .inr ⟨B, C, _, _, rfl, rfl, or_pointer _, ?_⟩⟩
    rwa [pointerOffset_bytes (hreads hlimit).1]

/-- The bytes that are left of a name are read as the labels that are read from the
name without compression. -/
def KeepsName (buf : List UInt8) (used : ℕ) (name : Name) (t buf' : List UInt8) (n : ℕ) : Prop :=
  ∃ plain m labels found,
    frDnsLabelFromValueBox buf used false (name.text ++ t) = .ok (.written plain m) ∧
    Denotes (plain.take (used + m)) used labels ∧ Denotes (buf'.take (used + n)) used found ∧
    SameName found labels ∧ PointsBack name.labels used (slice buf' used n) ∧
    buf'.take used = buf.take used

/-- Compression preserves a name that does not end with one that begins at offset 2¹⁴
of the buffer. -/
theorem frDnsLabelFromValueBox_keepsName (h : Filled buf used) (name : Name) {t : List UInt8}
    (ht : EndDot t)
    (hcall : frDnsLabelFromValueBox buf used true (name.text ++ t) = .ok (.written buf' n))
    (hlimit : ¬AtLimit (buf.take used) name.labels) : KeepsName buf used name t buf' n := by
  obtain ⟨hle, hended⟩ := h.ended
  have hused : (buf.take used).length = used := by
    rw [length_take]
    omega
  obtain ⟨hencodable, hfits⟩ := encodable_of_call ht hcall
  obtain ⟨Q, post, rfl, hlen, happended⟩ := appended_of_call ht hended hcall
  obtain ⟨found, hfound, hsame⟩ := happended.denotes hlimit
  obtain ⟨bytes, rfl, hback⟩ := happended.pointsBack hlimit
  rw [hused] at hfound hback
  have hn : n = bytes.length := by
    rw [length_append, hused] at hlen
    omega
  have hplain := frDnsLabelFromValueBox_text name ht hencodable hfits false
  rw [if_neg (by simp)] at hplain
  refine ⟨_, _, name.labels.map (·.val), found, hplain, denotes_splice hle _, ?_, hsame, ?_, ?_⟩
  · rw [hlen, take_left]
    exact hfound
  · rw [slice, append_assoc, drop_left' hused, hn, take_left]
    exact hback
  · rw [append_assoc, take_left' hused]

def shortLabel : Name where
  first := ⟨[0x61, 0x62], rfl⟩
  rest := []

theorem keepsName_twice :
    KeepsName [2, 0x61, 0x62, 0, 0, 0, 0, 0] 4 shortLabel []
      [2, 0x61, 0x62, 0, 0xc0, 0, 0x62, 0] 2 :=
  have hfirst : frDnsLabelFromValueBox (replicate 8 0) 0 true [0x61, 0x62] =
      .ok (.written [2, 0x61, 0x62, 0, 0, 0, 0, 0] 4) := by decide
  frDnsLabelFromValueBox_keepsName (.call (.empty _) hfirst) shortLabel (.inl rfl)
    (by decide) fun h => h.1 (by decide)

end Runs

section Limit

variable {buf : List UInt8} {stop q k : ℕ}

/-- The search goes over end of label bytes. -/
theorem scan_zeros (hzero : ∀ i < k, byte buf i = 0) (hstop : k ≤ stop) (hq : q ≤ k)
    (label : ℕ) (follow : ℕ → Follow) (rounds : ℕ) :
    scan buf stop label follow (rounds + (k - q)) q q = scan buf stop label follow rounds k k := by
  obtain ⟨j, rfl⟩ := Nat.exists_eq_add_of_le hq
  induction j generalizing q with
  | zero => rw [Nat.add_zero, Nat.sub_self, Nat.add_zero]
  | succ j ih =>
    rw [show rounds + (q + (j + 1) - q) = rounds + (q + 1 + j - (q + 1)) + 1 by omega, scan,
      if_neg (by omega), if_pos (hzero q (by omega)), show q + (j + 1) = q + 1 + j by omega]
    exact ih (fun i hi => hzero i (by omega)) (by omega) (by omega)

theorem byte_zeros {i : ℕ} (Y : List UInt8) (h : i < k) : byte (replicate k 0 ++ Y) i = 0 := by
  rw [byte_append_left (by rwa [length_replicate]), byte, getD_eq_getElem?_getD,
    getElem?_replicate_of_lt h]
  rfl

theorem filled_zeros (Y : List UInt8) (h : q ≤ k) : Filled (replicate k 0 ++ Y) q := by
  induction q with
  | zero => exact .empty _
  | succ q ih =>
    have hlen : (replicate k (0 : UInt8) ++ Y).length = k + Y.length := by
      rw [length_append, length_replicate]
    have hset : (replicate k (0 : UInt8) ++ Y).set q 0 = replicate k 0 ++ Y := by
      rw [set_append_left _ _ (by rw [length_replicate]; omega), set_replicate_self]
    have hroot : frDnsLabelFromValueBox (replicate k 0 ++ Y) q true [dot] =
        .ok (.written (replicate k 0 ++ Y) 1) := by
      rw [frDnsLabelFromValueBox, if_neg (ne_nil_of_length_pos (by omega)), if_neg (by omega),
        if_pos (.inr rfl), hset]
    exact .call (ih (by omega)) hroot

/-- `ab` is only compared with what is behind the roots. -/
theorem compress_behind_zeros (E Y : List UInt8) {depth : ℕ} :
    dnsLabelCompress 0 (k + E.length) (depth + 1)
        (replicate k 0 ++ (E ++ (wire shortLabel.labels ++ Y))) none (k + E.length) =
      (scan (replicate k 0 ++ (E ++ (wire shortLabel.labels ++ Y))) (k + E.length)
        (k + E.length) (followTerminal (replicate k 0 ++ (E ++ (wire shortLabel.labels ++ Y))))
        E.length k k).map
      (replaceLabel (replicate k 0 ++ (E ++ (wire shortLabel.labels ++ Y))) (k + E.length)) := by
  have hbyte : ∀ i, byte (replicate k 0 ++ (E ++ (wire shortLabel.labels ++ Y)))
      (k + E.length + i) = byte (wire shortLabel.labels ++ Y) i := by
    intro i
    have h := byte_append_right (replicate k 0 ++ E) (wire shortLabel.labels ++ Y) i
    rwa [append_assoc, length_append, length_replicate] at h
  have hlabel : byte (replicate k 0 ++ (E ++ (wire shortLabel.labels ++ Y))) (k + E.length) = 2 :=
    hbyte 0
  have hnext : byte (replicate k 0 ++ (E ++ (wire shortLabel.labels ++ Y)))
      (k + E.length + (2 : UInt8).toNat + 1) = 0 := hbyte 3
  have hscan := scan_zeros (fun i hi => byte_zeros (E ++ (wire shortLabel.labels ++ Y)) hi)
    (Nat.le_add_right k E.length) (Nat.zero_le k) (k + E.length)
    (followTerminal (replicate k 0 ++ (E ++ (wire shortLabel.labels ++ Y)))) E.length
  rw [Nat.sub_zero, Nat.add_comm E.length] at hscan
  rw [dnsLabelCompress, hlabel, if_neg (by decide)]
  dsimp only
  rw [hnext, if_pos rfl, Option.getD_none, hscan]

theorem call_behind_zeros (E Y : List UInt8) (hk : 0 < k) (hY : 4 ≤ Y.length) :
    frDnsLabelFromValueBox (replicate k 0 ++ (E ++ Y)) (k + E.length) true
        (shortLabel.text ++ []) =
      .ok (afterCompress (replicate k 0 ++ (E ++ (wire shortLabel.labels ++ Y.drop 4)))
        (k + E.length) 4 ((scan
          (replicate k 0 ++ (E ++ (wire shortLabel.labels ++ Y.drop 4))) (k + E.length)
          (k + E.length)
          (followTerminal (replicate k 0 ++ (E ++ (wire shortLabel.labels ++ Y.drop 4))))
          E.length k k).map (replaceLabel
            (replicate k 0 ++ (E ++ (wire shortLabel.labels ++ Y.drop 4))) (k + E.length)))) := by
  have hlen : (replicate k (0 : UInt8) ++ E).length = k + E.length := by
    rw [length_append, length_replicate]
  have hbuf : (replicate k (0 : UInt8) ++ (E ++ Y)).length = k + E.length + Y.length := by
    rw [← append_assoc, length_append, hlen]
  have hsplice : splice (replicate k 0 ++ (E ++ Y)) (k + E.length) (wire shortLabel.labels) =
      replicate k 0 ++ (E ++ (wire shortLabel.labels ++ Y.drop 4)) := by
    rw [← append_assoc, ← hlen, splice_append]
    simp only [append_assoc]
    rfl
  obtain ⟨depth, hdepth⟩ : ∃ depth, (replicate k (0 : UInt8) ++ (E ++ Y)).length = depth + 1 :=
    ⟨k + E.length + Y.length - 1, by omega⟩
  rw [frDnsLabelFromValueBox_text shortLabel (.inl rfl) (forall_mem_nil _)
    (by rw [hbuf]; change _ + 2 + 2 ≤ _; omega), if_pos ⟨rfl, by omega⟩, hsplice, hdepth,
    compress_behind_zeros]
  rfl

theorem second_behind_zeros (hk : 0 < k) (hlimit : k ≤ 2 ^ 14) :
    frDnsLabelFromValueBox (replicate k 0 ++ (wire shortLabel.labels ++ replicate 4 0))
        (k + 4) true (shortLabel.text ++ []) =
      .ok (.written (replicate k 0 ++ (wire shortLabel.labels ++ pointerBytes k ++ [0x62, 0]))
        2) := by
  have hlen : (replicate k (0 : UInt8)).length = k := length_replicate
  generalize hbuf : replicate k 0 ++
    (wire shortLabel.labels ++ (wire shortLabel.labels ++ (replicate 4 0).drop 4)) = buf
  have hbyte : ∀ i, byte buf (k + i) = byte [2, 0x61, 0x62, 0, 2, 0x61, 0x62, 0] i := by
    intro i
    have h := byte_append_right (replicate k 0) [2, 0x61, 0x62, 0, 2, 0x61, 0x62, 0] i
    rw [hlen] at h
    rw [← hbuf]
    exact h
  have hslice : ∀ i n, slice buf (k + i) n = slice [2, 0x61, 0x62, 0, 2, 0x61, 0x62, 0] i n := by
    intro i n
    have h := slice_append_right (replicate k (0 : UInt8)) [2, 0x61, 0x62, 0, 2, 0x61, 0x62, 0] i n
    rw [hlen] at h
    rw [← hbuf]
    exact h
  have hfirst : byte buf k = 2 := hbyte 0
  have hend : byte buf (k + (2 : UInt8).toNat + 1) = 0 := hbyte 3
  have hlabel : byte buf (k + 4) = 2 := hbyte 4
  have hcmp : labelcmp (slice buf (k + 1) (2 : UInt8).toNat)
      (slice buf (k + 4 + 1) (2 : UInt8).toNat) = true := by
    rw [hslice 1, Nat.add_assoc k, hslice (4 + 1)]
    rfl
  have hscan : scan buf (k + 4) (k + 4) (followTerminal buf) 4 k k = some (k, k) := by
    rw [scan, if_neg (by omega), hfirst, if_neg (by decide), if_neg (by decide)]
    rw [if_neg (by change ¬k + 4 < k + 2 + 1; omega), hlabel, if_neg (by decide), followTerminal,
      hend, if_neg (by decide)]
    dsimp only
    rw [if_neg (by omega), hcmp, if_neg (by decide)]
  have hcall := call_behind_zeros (wire shortLabel.labels) (replicate 4 0) hk (by decide)
  rw [hbuf] at hcall
  refine hcall.trans ?_
  change Except.ok (afterCompress buf (k + 4) 4 ((scan buf (k + 4) (k + 4) (followTerminal buf) 4 k
    k).map (replaceLabel buf (k + 4)))) = _
  rw [hscan]
  refine congrArg Except.ok ?_
  change Encoded.written (splice buf (k + 4) (pointerBytes k)) (k + 4 + 2 - (k + 4)) = _
  have hpre : (replicate k 0 ++ wire shortLabel.labels).length = k + 4 := by
    rw [length_append, hlen]
    rfl
  rw [Nat.add_sub_cancel_left, ← hbuf, ← append_assoc, ← hpre, splice_append]
  simp only [append_assoc]
  rfl

/-- The buffer has roots up to offset 2¹⁴, and there the name `ab`. The second time
`ab` is encoded the pointer refers to the first root. -/
theorem not_keepsName_at_limit :
    ∃ buf used buf' n, Filled buf used ∧
      frDnsLabelFromValueBox buf used true (shortLabel.text ++ []) = .ok (.written buf' n) ∧
      ¬KeepsName buf used shortLabel [] buf' n := by
  have hk : 0 < 2 ^ 14 := by decide
  generalize hlimit : 2 ^ 14 = k at hk
  have hfilled := Filled.call (filled_zeros (replicate 8 0) (Nat.le_refl k))
    (call_behind_zeros [] (replicate 8 0) hk (by decide))
  have hcall := second_behind_zeros hk hlimit.ge
  refine ⟨_, _, _, _, hfilled, hcall, ?_⟩
  rintro ⟨plain, m, labels, found, hplain, hlabels, hfound, hsame, -⟩
  have hpointer : pointerBytes k = [0xc0, 0] := by
    rw [← hlimit]
    decide
  have hpre : (replicate k 0 ++ wire shortLabel.labels).length = k + 4 := by
    rw [length_append, length_replicate]
    rfl
  have hroot : found = [] := by
    have htake : (replicate k 0 ++ (wire shortLabel.labels ++ pointerBytes k ++ [0x62, 0])).take
        (k + 4 + 2) = replicate k 0 ++ wire shortLabel.labels ++ [0xc0, 0] := by
      rw [hpointer, ← append_assoc, ← append_assoc, take_left']
      rw [length_append, hpre]
      rfl
    rw [htake, ← hpre] at hfound
    refine hfound.unique (.pointer ?_ ?_ ?_)
    · rw [hpre, length_append, hpre]
      exact Nat.lt_succ_self _
    · rw [byte_append_cons]
      decide
    · rw [byte_append_cons, byte_append_right, append_assoc]
      change Denotes _ 0 []
      exact .root (by rw [length_append, length_replicate]; omega) (byte_zeros _ hk)
  have hname : labels = [[0x61, 0x62]] := by
    obtain ⟨hencodable, hfits⟩ := encodable_of_call (.inl rfl) hplain
    rw [frDnsLabelFromValueBox_text shortLabel (.inl rfl) hencodable hfits, if_neg (by simp)] at hplain
    cases hplain
    exact hlabels.unique (denotes_splice (by omega) shortLabel.labels)
  rw [hroot, hname] at hsame
  cases hsame

end Limit

end FreeRadius.Dns
