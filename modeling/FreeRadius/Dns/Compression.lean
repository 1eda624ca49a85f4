import FreeRadius.Library.Word
import FreeRadius.Dns.Names

/-!
# Compressed names

A name in a buffer is read by following its pointers. A label that the search of
`dns_label_compress` finds is read as the labels that it stands for, as the two are
equal and have the same behind them. This does not depend on where the search looks.
-/

namespace FreeRadius.Dns

open Library List

variable {i q search o : ℕ} {a b : List UInt8}

section Denotation

variable {buf : List UInt8} {pos : ℕ} {labels : List (List UInt8)}

/-- The labels that are read from an offset on. -/
inductive Denotes (buf : List UInt8) : ℕ → List (List UInt8) → Prop
  | root {pos : ℕ} (hpos : pos < buf.length) (hbyte : byte buf pos = 0) : Denotes buf pos []
  | label {pos : ℕ} {rest : List (List UInt8)} (hpos : byte buf pos ≠ 0)
      (hle : ¬63 < byte buf pos) (hfits : pos + (byte buf pos).toNat + 1 ≤ buf.length)
      (hrest : Denotes buf (pos + (byte buf pos).toNat + 1) rest) :
      Denotes buf pos (slice buf (pos + 1) (byte buf pos).toNat :: rest)
  | pointer {pos : ℕ} {labels : List (List UInt8)} (hpos : pos + 1 < buf.length)
      (hbyte : 0xc0 ≤ byte buf pos)
      (htarget : Denotes buf (pointerOffset (byte buf pos) (byte buf (pos + 1))) labels) :
      Denotes buf pos labels

theorem not_le_of_pointer {c : UInt8} (h : 0xc0 ≤ c) : 63 < c := by
  rw [UInt8.le_iff_toNat_le] at h
  rw [UInt8.lt_iff_toNat_lt]
  exact Nat.lt_of_lt_of_le (by decide) h

/-- There is one way to read a name. -/
theorem Denotes.unique {labels' : List (List UInt8)} (h : Denotes buf pos labels)
    (h' : Denotes buf pos labels') : labels = labels' := by
  induction h generalizing labels' with
  | root hpos hbyte =>
    cases h' with
    | root => rfl
    | label hne => exact absurd hbyte hne
    | pointer _ hle => exact absurd (hbyte ▸ hle) (by decide)
  | label hne hle hfits hrest ih =>
    cases h' with
    | root _ hbyte => exact absurd hbyte hne
    | label _ _ _ hrest' => rw [ih hrest']
    | pointer _ hbyte => exact absurd (not_le_of_pointer hbyte) hle
  | pointer hpos hbyte htarget ih =>
    cases h' with
    | root _ hzero => exact absurd (hzero ▸ hbyte) (by decide)
    | label _ hle => exact absurd (not_le_of_pointer hbyte) hle
    | pointer _ _ htarget' => exact ih htarget'

theorem byte_append_left (h : i < buf.length) (post : List UInt8) :
    byte (buf ++ post) i = byte buf i := by
  rw [byte, byte, getD_eq_getElem?_getD, getD_eq_getElem?_getD, getElem?_append_left h]

theorem Denotes.append (h : Denotes buf pos labels) (post : List UInt8) :
    Denotes (buf ++ post) pos labels := by
  induction h with
  | root hpos hbyte =>
    exact .root (by rw [length_append]; omega) (by rw [byte_append_left hpos, hbyte])
  | @label pos rest hne hle hfits hrest ih =>
    have hbyte := byte_append_left (by omega : pos < buf.length) post
    rw [← slice_append_left (b := post) (by omega), ← hbyte]
    rw [← hbyte] at ih
    exact .label (by rwa [hbyte]) (by rwa [hbyte]) (by rw [hbyte, length_append]; omega) ih
  | @pointer pos labels hpos hbyte htarget ih =>
    have hfirst := byte_append_left (by omega : pos < buf.length) post
    have hsecond := byte_append_left hpos post
    rw [← hfirst, ← hsecond] at ih
    exact .pointer (by rw [length_append]; omega) (by rwa [hfirst]) ih

end Denotation

section Case

def lower (c : UInt8) : UInt8 := if 0x41 ≤ c ∧ c ≤ 0x5a then c + 0x20 else c

/-- The labels are the same if the case does not matter. -/
def SameName (a b : List (List UInt8)) : Prop := a.map (·.map lower) = b.map (·.map lower)

theorem lower_xor : ∀ c : UInt8, isLetter c = true → lower c = lower (c ^^^ 0x20) :=
  forall_uint8 (by decide)

theorem lower_of_xor {a b : UInt8} (ha : isLetter a = true) (h : a ^^^ b = 0x20) :
    lower a = lower b := by
  have hb : b = a ^^^ 0x20 := by rw [← h, ← UInt8.xor_assoc, UInt8.xor_self, UInt8.zero_xor]
  rw [hb]
  exact lower_xor a ha

theorem map_lower_of_labelcmp (hlen : a.length = b.length) (h : labelcmp a b = true) :
    a.map lower = b.map lower := by
  induction a generalizing b with
  | nil => rw [eq_nil_of_length_eq_zero hlen.symm]
  | cons x a ih =>
    obtain _ | ⟨y, b⟩ := b
    · cases hlen
    have hlen' := Nat.succ.inj hlen
    rw [labelcmp] at h
    rw [map_cons, map_cons]
    split at h
    next hxy => rw [hxy, ih hlen' h]
    · by_cases hx : isLetter x = true
      · by_cases hy : isLetter y = true
        · by_cases hxor : x ^^^ y = 0x20
          · simp only [hx, hy, hxor, ne_eq, not_true_eq_false, Bool.not_true, Bool.false_eq_true,
              if_false] at h
            rw [lower_of_xor hx hxor, ih hlen' h]
          · simp [hx, hy, hxor] at h
        · simp [hx, hy] at h
      · simp [hx] at h

theorem lower_lt : ∀ c : UInt8, lower c < 0xc0 ↔ c < 0xc0 :=
  forall_uint8 (by decide)

/-- No byte of what equals a label is the first one of a pointer. -/
theorem lt_pointer_of_lower (h : a.map lower = b.map lower) (hb : ∀ c ∈ b, c < 0xc0) :
    ∀ c ∈ a, c < 0xc0 := by
  intro c hc
  have hmem : lower c ∈ b.map lower := h ▸ mem_map_of_mem hc
  obtain ⟨d, hd, heq⟩ := List.mem_map.mp hmem
  rw [← lower_lt, ← heq, lower_lt]
  exact hb d hd

theorem labelChar_lt : ∀ c : UInt8, isLabelChar c = true → c < 0xc0 :=
  forall_uint8 (by decide)

theorem Label.lt_pointer (l : Label) : ∀ c ∈ l.val, c < 0xc0 := by
  obtain ⟨c, rest, hl, hc, hrest, -⟩ := l.cases
  rw [hl]
  refine List.forall_mem_cons.mpr ⟨?_, fun x hx => labelChar_lt x (hrest x hx)⟩
  rcases hc with rfl | hc
  · decide
  · exact labelChar_lt c hc

end Case

section Scan

variable {buf : List UInt8} {stop label : ℕ} {follow : ℕ → Follow}

/-- What the search knows about a label that it returns. -/
structure Found (buf : List UInt8) (stop label : ℕ) (follow : ℕ → Follow) (q : ℕ) : Prop where
  pos : byte buf q ≠ 0
  le : ¬63 < byte buf q
  fits : q + (byte buf label).toNat + 1 ≤ stop
  same : byte buf q = byte buf label
  check : follow (q + (byte buf label).toNat + 1) = .check
  limit : q ≤ 2 ^ 14
  equal : labelcmp (slice buf (q + 1) (byte buf label).toNat)
    (slice buf (label + 1) (byte buf label).toNat) = true

theorem found_of_scan {rounds : ℕ} {found : ℕ × ℕ}
    (h : scan buf stop label follow rounds q search = some found) :
    Found buf stop label follow found.1 := by
  induction rounds generalizing q search with
  | zero => cases h
  | succ rounds ih =>
    rw [scan] at h
    split at h
    · cases h
    split at h
    · exact ih h
    next hpos =>
    split at h
    · exact ih h
    next hle =>
    dsimp only at h
    split at h
    · cases h
    next hfits =>
    split at h
    · exact ih h
    next hsame =>
    rw [not_not] at hsame
    rw [hsame] at h hfits
    split at h
    · exact ih h
    · exact ih h
    next hcheck =>
    split at h
    · cases h
    next hlimit =>
    split at h
    · exact ih h
    next hequal =>
      cases h
      exact ⟨hpos, hle, Nat.not_lt.mp hfits, hsame, hcheck, Nat.not_lt.mp hlimit,
        by simpa using hequal⟩

end Scan

section Pointers

theorem or_pointer : ∀ c : UInt8, 0xc0 ≤ c ||| 0xc0 :=
  forall_uint8 (by decide)

theorem and_or_pointer : ∀ c : UInt8, c < 0x40 → (c ||| 0xc0) &&& 0x3f = c :=
  forall_uint8 (by decide)

theorem pointerOffset_bytes (h : o < 2 ^ 14) :
    pointerOffset (UInt8.ofNat (o / 256) ||| 0xc0) (UInt8.ofNat (o % 256)) = o := by
  have hhigh : (UInt8.ofNat (o / 256)).toNat = o / 256 := by
    rw [UInt8.toNat_ofNat']
    exact Nat.mod_eq_of_lt (by omega)
  have hlow : (UInt8.ofNat (o % 256)).toNat = o % 256 := by
    rw [UInt8.toNat_ofNat']
    exact Nat.mod_eq_of_lt (by omega)
  rw [pointerOffset, and_or_pointer, hhigh, hlow]
  · omega
  · rw [UInt8.lt_iff_toNat_lt, hhigh]
    change o / 256 < 64
    omega

end Pointers

section Found

/-- A buffer with names ends with an end of label byte or a pointer. -/
def Ended (P : List UInt8) : Prop :=
  P = [] ∨ (∃ A, P = A ++ [0]) ∨ ∃ A a b, P = A ++ [a, b] ∧ 0xc0 ≤ a

/-- If the last byte looks like the first one of a pointer, it is the second one. -/
theorem Ended.lt_length {P : List UInt8} (h : Ended P) (hi : i + 1 < P.length)
    (hbefore : byte P i < 0xc0) (hpointer : 0xc0 ≤ byte P (i + 1)) : i + 2 < P.length := by
  by_contra hend
  rcases h with rfl | ⟨A, rfl⟩ | ⟨A, a, b, rfl, ha⟩
  · cases hi
  · rw [length_append, length_singleton] at hi hend
    rw [show i + 1 = A.length by omega, byte_append_cons] at hpointer
    exact absurd hpointer (by decide)
  · simp only [length_append, length_cons, length_nil] at hi hend
    rw [show i = A.length by omega, byte_append_cons] at hbefore
    exact absurd ha (UInt8.not_le.mpr hbefore)

variable {P X : List UInt8} {label next o q : ℕ} {follow : ℕ → Follow} {l : Label}
  {rest : List (List UInt8)}

theorem Found.denotes (h : Found (P ++ X) P.length label follow q)
    (hbyte : byte (P ++ X) label = UInt8.ofNat l.val.length)
    (hslice : slice (P ++ X) (label + 1) l.val.length = l.val)
    (hrest : Denotes P (q + l.val.length + 1) rest) :
    ∃ x, Denotes P q (x :: rest) ∧ x.map lower = l.val.map lower ∧
      x = slice P (q + 1) l.val.length := by
  have hfits := h.fits
  have hequal := h.equal
  have hsame := h.same
  rw [hbyte, l.toNat_length] at hfits hequal
  rw [hbyte, byte_append_left (by omega)] at hsame
  rw [hslice, slice_append_left (by omega)] at hequal
  have hdenotes : Denotes P q (slice P (q + 1) (byte P q).toNat :: rest) := by
    refine .label ?_ ?_ ?_ ?_
    · rw [hsame]
      exact l.byte_pos
    · rw [hsame]
      exact l.byte_le
    · rw [hsame, l.toNat_length]
      exact hfits
    · rw [hsame, l.toNat_length]
      exact hrest
  rw [hsame, l.toNat_length] at hdenotes
  exact ⟨_, hdenotes, map_lower_of_labelcmp (length_slice (by omega)) hequal, rfl⟩

theorem Found.terminal (h : Found (P ++ X) P.length label (followTerminal (P ++ X)) q)
    (hbyte : byte (P ++ X) label = UInt8.ofNat l.val.length)
    (hfirst : byte (P ++ X) P.length ≠ 0) : Denotes P (q + l.val.length + 1) [] := by
  have hfits := h.fits
  have hcheck := h.check
  rw [hbyte, l.toNat_length] at hfits hcheck
  have hzero : byte (P ++ X) (q + l.val.length + 1) = 0 := by
    rw [followTerminal] at hcheck
    split at hcheck
    · cases hcheck
    next hzero => exact not_not.mp hzero
  have hlt : q + l.val.length + 1 < P.length := by
    refine lt_of_le_of_ne hfits fun heq => hfirst ?_
    rw [← heq]
    exact hzero
  rw [byte_append_left hlt] at hzero
  exact .root hlt hzero

theorem Found.suffix (h : Found (P ++ X) P.length label (followSuffix (P ++ X) next o) q)
    (hbyte : byte (P ++ X) label = UInt8.ofNat l.val.length)
    (hslice : slice (P ++ X) (label + 1) l.val.length = l.val) (hended : Ended P)
    (hfirst : ¬63 < byte (P ++ X) P.length) (hnext : 0xc0 ≤ byte (P ++ X) next)
    (ho : pointerOffset (byte (P ++ X) next) (byte (P ++ X) (next + 1)) = o)
    (hrest : Denotes P o rest) : Denotes P (q + l.val.length + 1) rest := by
  have hfits := h.fits
  have hcheck := h.check
  have hequal := h.equal
  rw [hbyte, l.toNat_length] at hfits hcheck hequal
  rw [hslice, slice_append_left (by omega)] at hequal
  rw [followSuffix] at hcheck
  split at hcheck
  · split at hcheck
    · cases hcheck
    next heq =>
      rw [not_not.mp heq]
      exact hrest
  split at hcheck
  · cases hcheck
  next heq =>
  obtain ⟨heq, heq'⟩ : byte (P ++ X) (q + l.val.length + 1) = byte (P ++ X) next ∧
      byte (P ++ X) (q + l.val.length + 1 + 1) = byte (P ++ X) (next + 1) := by
    simpa only [not_or, not_not] using heq
  have hlt : q + l.val.length + 1 < P.length := by
    refine lt_of_le_of_ne hfits fun hend => hfirst ?_
    rw [← hend, heq]
    exact not_le_of_pointer hnext
  have hpos := l.length_pos
  -- the second byte of the pointer is not the first one of the new name: that one is
  -- behind a pointer, of which the label would have the first byte
  have hbefore : byte P (q + l.val.length) < 0xc0 := by
    refine lt_pointer_of_lower (map_lower_of_labelcmp (length_slice (by omega)) hequal)
      l.lt_pointer _ (mem_of_getElem? (i := l.val.length - 1) ?_)
    rw [getElem?_slice, if_pos (by omega), byte, getD_eq_getElem?_getD,
      show q + 1 + (l.val.length - 1) = q + l.val.length by omega, getElem?_eq_getElem (by omega)]
    rfl
  have hlt' : q + l.val.length + 1 + 1 < P.length :=
    hended.lt_length hlt hbefore (by rwa [← byte_append_left hlt X, heq])
  rw [← heq, ← heq', byte_append_left hlt, byte_append_left hlt'] at ho
  rw [← heq, byte_append_left hlt] at hnext
  exact .pointer hlt' hnext (ho ▸ hrest)

end Found

section Compress

variable {P : List UInt8} {A labels : List Label} {l : Label}

/-- The bytes at offset 2¹⁴ of the buffer read as a name that the new name ends with. -/
def AtLimit (P : List UInt8) (labels : List Label) : Prop :=
  byte P (2 ^ 14) ≠ 0 ∧ ¬63 < byte P (2 ^ 14) ∧
    ∃ suffix found, suffix ≠ [] ∧ suffix <:+ labels ∧ Denotes P (2 ^ 14) found ∧
      SameName found (suffix.map (·.val))

theorem AtLimit.cons (h : AtLimit P labels) : AtLimit P (l :: labels) := by
  obtain ⟨hpos, hle, suffix, found, hne, hsuffix, hfound⟩ := h
  exact ⟨hpos, hle, suffix, found, hne, hsuffix.trans (suffix_cons _ _), hfound⟩

/-- An offset in the buffer from which the labels are read. -/
def Reads (P : List UInt8) (o : ℕ) (labels : List Label) : Prop :=
  o < 2 ^ 14 ∧ ∃ found, Denotes P o found ∧ SameName found (labels.map (·.val))

/-- The last ones of the labels were replaced by a pointer into the buffer in front of
the name. `A` are the labels of the name in front of these. -/
def Shortened (P : List UInt8) (A labels : List Label) (c : Compressed) : Prop :=
  ∃ B C o post, labels = B ++ C ∧ C ≠ [] ∧
    c.buf = P ++ (fields (A ++ B) ++ pointerBytes o ++ post) ∧
    c.labelEnd = P.length + (fields (A ++ B)).length + 2 ∧ o < P.length ∧
    (¬AtLimit P labels → Reads P o C)

variable {X : List UInt8} {found : ℕ × ℕ} {c : Compressed} {next : ℕ}

theorem replaceLabel_shortened (hlt : found.1 < P.length)
    (hreads : ¬AtLimit P (l :: labels) → Reads P found.1 (l :: labels)) :
    Shortened P A (l :: labels)
      (replaceLabel (P ++ (fields A ++ X)) (P.length + (fields A).length) found) := by
  refine ⟨[], l :: labels, found.1, X.drop 2, rfl, cons_ne_nil _ _, ?_, ?_, hlt, hreads⟩
  · rw [replaceLabel, ← append_assoc, ← length_append, splice_append, append_nil]
    simp only [append_assoc]
    rfl
  · rw [append_nil]
    rfl

theorem Shortened.cons (h : Shortened P (A ++ [l]) labels c) (search : ℕ) :
    Shortened P A (l :: labels) { c with search := search } := by
  obtain ⟨B, C, o, post, rfl, hC, hbuf, hend, ho, hreads⟩ := h
  rw [append_assoc A, singleton_append] at hbuf hend
  exact ⟨l :: B, C, o, post, rfl, hC, hbuf, hend, ho, fun hlimit => hreads fun h => hlimit h.cons⟩

variable {Y : List UInt8}

theorem byte_nameLabel :
    byte (P ++ (fields A ++ (fields [l] ++ Y))) (P.length + (fields A).length) =
      UInt8.ofNat l.val.length := by
  rw [← append_assoc, ← append_assoc, ← length_append]
  exact byte_label ..

theorem slice_nameLabel :
    slice (P ++ (fields A ++ (fields [l] ++ Y))) (P.length + (fields A).length + 1)
      l.val.length = l.val := by
  rw [← append_assoc, ← append_assoc, ← length_append]
  exact slice_label ..

theorem byte_behind (i : ℕ) :
    byte (P ++ (fields A ++ (fields [l] ++ Y)))
      (P.length + (fields A).length + l.val.length + 1 + i) = byte Y i := by
  have hlen : (P ++ fields A ++ fields [l]).length = P.length + (fields A).length + l.val.length + 1 := by
    simp [Nat.add_assoc]
  rw [← append_assoc, ← append_assoc, ← hlen]
  exact byte_append_right ..

theorem byte_nameFirst :
    ∃ f : Label, byte (P ++ (fields A ++ (fields [l] ++ Y))) P.length =
      UInt8.ofNat f.val.length := by
  cases A with
  | nil => exact ⟨l, byte_nameLabel (A := [])⟩
  | cons f A =>
    refine ⟨f, ?_⟩
    rw [fields_cons]
    exact byte_append_cons ..

theorem reads_of_found {label : ℕ} {follow : ℕ → Follow} {rest : List (List UInt8)}
    (h : Found (P ++ X) P.length label follow q)
    (hbyte : byte (P ++ X) label = UInt8.ofNat l.val.length)
    (hslice : slice (P ++ X) (label + 1) l.val.length = l.val)
    (hrest : Denotes P (q + l.val.length + 1) rest) (hsame : SameName rest (labels.map (·.val)))
    (hlimit : ¬AtLimit P (l :: labels)) : Reads P q (l :: labels) := by
  obtain ⟨x, hdenotes, hlower, -⟩ := h.denotes hbyte hslice hrest
  have hname : SameName (x :: rest) ((l :: labels).map (·.val)) := by
    rw [SameName, map_cons, map_cons, map_cons, hlower, hsame]
  have hfits := h.fits
  refine ⟨lt_of_le_of_ne h.limit fun heq => hlimit ?_, x :: rest, hdenotes, hname⟩
  have hq := byte_append_left (by omega : q < P.length) X
  subst heq
  exact ⟨hq ▸ h.pos, hq ▸ h.le, l :: labels, x :: rest, cons_ne_nil _ _, suffix_refl _,
    hdenotes, hname⟩

theorem suffix_shortened (hended : Ended P) {buf : List UInt8}
    (hbuf : buf = P ++ (fields A ++ (fields [l] ++ (pointerBytes o ++ Y))))
    (hnext : next = P.length + (fields A).length + l.val.length + 1)
    (h : Found buf P.length (P.length + (fields A).length)
      (followSuffix buf next (pointerOffset (byte buf next) (byte buf (next + 1)))) found.1)
    (hreads : ¬AtLimit P labels → Reads P o labels) :
    Shortened P A (l :: labels) (replaceLabel buf (P.length + (fields A).length) found) := by
  have hfits := h.fits
  have hbyte : byte buf next = UInt8.ofNat (o / 256) ||| 0xc0 := by
    rw [hbuf, hnext]
    exact byte_behind 0
  have hbyte' : byte buf (next + 1) = UInt8.ofNat (o % 256) := by
    rw [hbuf, hnext]
    exact byte_behind 1
  rw [hbuf]
  refine replaceLabel_shortened (by omega) fun hlimit => ?_
  obtain ⟨f, hfirst⟩ := byte_nameFirst (P := P) (A := A) (l := l) (Y := pointerBytes o ++ Y)
  obtain ⟨ho, rest, hrest, hsame⟩ := hreads fun hat => hlimit hat.cons
  rw [← pointerOffset_bytes ho, ← hbyte, ← hbyte'] at hrest
  rw [hbuf] at h hrest hbyte
  exact reads_of_found h byte_nameLabel slice_nameLabel
    (h.suffix byte_nameLabel slice_nameLabel hended (hfirst ▸ f.byte_le)
      (hbyte ▸ or_pointer _) rfl hrest) hsame hlimit

theorem next_eq : P.length + (fields A).length + l.val.length + 1 =
    P.length + (fields (A ++ [l])).length := by
  rw [fields_append, length_append]
  simp [Nat.add_assoc]

/-- The label in front of what was shortened is replaced, or not. -/
theorem compressInFront_shortened (hended : Ended P) {inner : Compressed}
    (hnext : next = P.length + (fields A).length + l.val.length + 1)
    (hinner : Shortened P (A ++ [l]) labels inner)
    (h : compressInFront P.length inner.buf inner.search (P.length + (fields A).length) next
      (some { inner with search := search }) = some c) : Shortened P A (l :: labels) c := by
  have hcons := hinner.cons search
  rw [compressInFront] at h
  split at h
  · cases h
    exact hcons
  next hpointer =>
  dsimp only at h
  split at h
  · cases h
    exact hcons
  next found hscan =>
  cases h
  obtain ⟨B, C, o, post, rfl, hC, hbuf, -, ho, hreads⟩ := hinner
  cases B with
  | nil =>
    refine suffix_shortened hended ?_ hnext (found_of_scan hscan) hreads (Y := post) (o := o)
    rw [hbuf, append_nil, fields_append]
    simp
  | cons b B =>
    -- a label that stays is in front of the pointer
    refine absurd ?_ hpointer
    have hbyte : byte inner.buf next = UInt8.ofNat b.val.length := by
      rw [hbuf, hnext, append_assoc A, fields_append, fields_append, append_assoc, append_assoc,
        append_assoc]
      exact byte_behind 0
    rw [hbyte, UInt8.lt_iff_toNat_lt, b.toNat_length]
    exact Nat.lt_of_le_of_lt b.length_le (by decide)

/-- What is shortened is read as the name, whatever `dns_label_compress` finds. -/
theorem dnsLabelCompress_shortened (hended : Ended P) {start depth : ℕ} {newSearch : Option ℕ}
    (h : dnsLabelCompress start P.length depth (P ++ (fields A ++ (wire labels ++ Y))) newSearch
      (P.length + (fields A).length) = some c) : Shortened P A labels c := by
  induction depth generalizing A labels newSearch c with
  | zero => cases h
  | succ depth ih =>
    cases labels with
    | nil =>
      have hbyte : byte (P ++ (fields A ++ (wire [] ++ Y))) (P.length + (fields A).length) = 0 := by
        rw [← append_assoc, ← length_append]
        exact byte_append_cons ..
      rw [dnsLabelCompress, if_pos (.inl hbyte)] at h
      cases h
    | cons l ls =>
      have hwire : wire (l :: ls) ++ Y = fields [l] ++ (wire ls ++ Y) := by simp [wire]
      rw [hwire, dnsLabelCompress, byte_nameLabel, if_neg (not_or.mpr ⟨l.byte_pos, l.byte_le⟩)] at h
      dsimp only at h
      rw [l.toNat_length] at h
      have hnext := byte_behind (P := P) (A := A) (l := l) (Y := wire ls ++ Y) 0
      rw [Nat.add_zero] at hnext
      rw [hnext] at h
      cases ls with
      | nil =>
        rw [if_pos (show byte (wire [] ++ Y) 0 = 0 from rfl)] at h
        obtain ⟨found, hscan, rfl⟩ := Option.map_eq_some_iff.mp h
        have hfound := found_of_scan hscan
        have hfits := hfound.fits
        refine replaceLabel_shortened (by omega) fun hlimit => ?_
        obtain ⟨f, hfirst⟩ := byte_nameFirst (P := P) (A := A) (l := l) (Y := wire [] ++ Y)
        exact reads_of_found hfound byte_nameLabel slice_nameLabel
          (hfound.terminal byte_nameLabel (hfirst ▸ f.byte_pos)) rfl hlimit
      | cons l' ls =>
        have hl' : byte (wire (l' :: ls) ++ Y) 0 = UInt8.ofNat l'.val.length := rfl
        rw [hl', if_neg l'.byte_pos] at h
        split at h
        · split at h
          · cases h
          next inner hinner =>
            rw [next_eq, ← append_assoc (fields A), ← fields_append] at hinner
            exact compressInFront_shortened hended rfl (ih hinner) h
        · -- a label of 63 characters is not looked at
          have hlt : UInt8.ofNat l'.val.length < 0xc0 := by
            rw [UInt8.lt_iff_toNat_lt, l'.toNat_length]
            exact Nat.lt_of_le_of_lt l'.length_le (by decide)
          rw [compressInFront, hnext, hl', if_pos hlt] at h
          cases h

end Compress

end FreeRadius.Dns
