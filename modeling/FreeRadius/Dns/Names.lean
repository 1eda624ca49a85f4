import FreeRadius.Dns.Model

/-!
# Domain names

A domain name as labels, its text and its bytes in the network format. The encoder
accepts the texts of names only, and without compression it writes the bytes of the
name.
-/

namespace FreeRadius.Dns

open Library List

section Names

/-- 1 to 63 characters, of which the first one may be an underscore. -/
def isLabel : List UInt8 → Bool
  | [] => false
  | c :: rest => (c == underscoreChar || isLabelChar c) && rest.all isLabelChar && rest.length < 63

abbrev Label := { l : List UInt8 // isLabel l = true }

structure Name where
  first : Label
  rest : List Label

def Name.labels (name : Name) : List Label := name.first :: name.rest

def dotted (labels : List Label) : List UInt8 := labels.flatMap fun l => dot :: l.val

def Name.text (name : Name) : List UInt8 := name.first.val ++ dotted name.rest

def fields (labels : List Label) : List UInt8 :=
  labels.flatMap fun l => UInt8.ofNat l.val.length :: l.val

def wire (labels : List Label) : List UInt8 := fields labels ++ [0]

/-- A dot may be at the end of a name. -/
def EndDot (t : List UInt8) : Prop := t = [] ∨ t = [dot]

@[simp] theorem dotted_nil : dotted [] = [] := rfl

@[simp] theorem dotted_cons (l : Label) (ls : List Label) :
    dotted (l :: ls) = dot :: l.val ++ dotted ls := rfl

@[simp] theorem fields_nil : fields [] = [] := rfl

@[simp] theorem fields_cons (l : Label) (ls : List Label) :
    fields (l :: ls) = UInt8.ofNat l.val.length :: l.val ++ fields ls := rfl

theorem fields_append (a b : List Label) : fields (a ++ b) = fields a ++ fields b := by
  rw [fields, flatMap_append]
  rfl

theorem length_fields (labels : List Label) : (fields labels).length = (dotted labels).length := by
  induction labels with
  | nil => rfl
  | cons l ls ih =>
    simp [ih]

theorem Name.length_wire (name : Name) : (wire name.labels).length = name.text.length + 2 := by
  simp only [wire, Name.labels, Name.text, fields_cons, length_append, length_cons, length_nil,
    length_fields]
  omega

end Names

section Labels

theorem label_ne_dot {c : UInt8} (h : isLabelChar c = true) : c ≠ dot := by
  rintro rfl
  cases h

theorem Label.cases (l : Label) :
    ∃ c rest, l.val = c :: rest ∧ (c = underscoreChar ∨ isLabelChar c = true) ∧
      (∀ x ∈ rest, isLabelChar x = true) ∧ rest.length < 63 := by
  obtain ⟨_ | ⟨c, rest⟩, hl⟩ := l
  · cases hl
  · refine ⟨c, rest, rfl, ?_⟩
    simpa [isLabel, and_assoc] using hl

theorem Label.length_pos (l : Label) : 0 < l.val.length := by
  obtain ⟨c, rest, hl, -⟩ := l.cases
  rw [hl]
  exact Nat.succ_pos _

theorem Label.length_le (l : Label) : l.val.length ≤ 63 := by
  obtain ⟨c, rest, hl, -, -, hrest⟩ := l.cases
  rw [hl]
  exact hrest

theorem Label.toNat_length (l : Label) : (UInt8.ofNat l.val.length).toNat = l.val.length := by
  have := l.length_le
  rw [UInt8.toNat_ofNat']
  exact Nat.mod_eq_of_lt (by omega)

theorem Label.ne_dot (l : Label) : ∀ c ∈ l.val, c ≠ dot := by
  obtain ⟨c, rest, hl, hc, hrest, -⟩ := l.cases
  rw [hl]
  intro x hx
  rcases mem_cons.mp hx with rfl | hx
  · rcases hc with rfl | hc
    · decide
    · exact label_ne_dot hc
  · exact label_ne_dot (hrest x hx)

theorem Label.head_ne_dot (l : Label) (t : List UInt8) : (l.val ++ t).head? ≠ some dot := by
  obtain ⟨c, rest, hl, -⟩ := l.cases
  have hc := l.ne_dot c (by rw [hl]; exact mem_cons_self)
  rw [hl]
  simpa using hc

theorem Label.append_ne_nil (l : Label) (t : List UInt8) : l.val ++ t ≠ [] := by
  have := l.length_pos
  rw [← length_pos_iff, length_append]
  omega

end Labels

section Bytes

theorem byte_append_right (pre post : List UInt8) (i : ℕ) :
    byte (pre ++ post) (pre.length + i) = byte post i := by
  rw [byte, byte, getD_eq_getElem?_getD, getElem?_append_right (Nat.le_add_right _ _),
    Nat.add_sub_cancel_left]
  rfl

theorem byte_append_cons (pre : List UInt8) (x : UInt8) (post : List UInt8) :
    byte (pre ++ x :: post) pre.length = x :=
  byte_append_right pre (x :: post) 0

variable (l : Label) (pre post : List UInt8)

theorem byte_label : byte (pre ++ fields [l] ++ post) pre.length = UInt8.ofNat l.val.length := by
  rw [fields_cons, append_assoc]
  exact byte_append_cons ..

theorem slice_label : slice (pre ++ fields [l] ++ post) (pre.length + 1) l.val.length = l.val := by
  simp [slice, ← drop_drop]

theorem length_label :
    (pre ++ fields [l] ++ post).length = pre.length + l.val.length + 1 + post.length := by
  simp only [fields_cons, fields_nil, length_append, length_cons, length_nil]
  omega

theorem Label.byte_pos : UInt8.ofNat l.val.length ≠ 0 := by
  intro h
  have := congrArg UInt8.toNat h
  rw [l.toNat_length] at this
  exact absurd this (Nat.ne_of_gt l.length_pos)

theorem Label.byte_le : ¬63 < UInt8.ofNat l.val.length := by
  rw [UInt8.lt_iff_toNat_lt, l.toNat_length]
  exact Nat.not_lt.mpr l.length_le

end Bytes

section Text

variable (name : Name)

theorem Name.length_text : name.text.length = name.first.val.length + (dotted name.rest).length :=
  length_append

theorem Name.length_pos : 0 < name.text.length := by
  have := name.first.length_pos
  rw [name.length_text]
  omega

theorem Name.head_ne_dot (t : List UInt8) : (name.text ++ t).head? ≠ some dot := by
  rw [Name.text, append_assoc]
  exact name.first.head_ne_dot _

theorem Name.text_ne_root (t : List UInt8) : ¬(name.text ++ t = [] ∨ name.text ++ t = [dot]) := by
  rintro (h | h)
  · rw [Name.text, append_assoc] at h
    exact name.first.append_ne_nil _ h
  · have := name.head_ne_dot t
    rw [h] at this
    exact this rfl

end Text

section Check

variable {value : List UInt8} {k d : ℕ} {c : UInt8} {t : List UInt8}

theorem checkName_char (hc : isLabelChar c = true) (rest : List UInt8) (u : Bool) (d : ℕ) :
    checkName (c :: rest) u d =
      if 63 < d + 1 then .error .labelTooLong
      else (checkName rest false (d + 1)).map (· + 1) := by
  have hunderscore : (c == underscoreChar) = false := by
    rw [beq_eq_false_iff_ne]
    rintro rfl
    cases hc
  rw [checkName]
  simp only [hunderscore, Bool.and_false, Bool.false_eq_true, if_false, if_neg (label_ne_dot hc), hc,
    Bool.not_true]

theorem map_map_ok (x : Except EncodeError ℕ) (m n : ℕ) :
    (x.map (· + m)).map (· + n) = x.map (· + (n + m)) := by
  cases x with
  | error e => rfl
  | ok k => exact congrArg Except.ok (show k + m + n = k + (n + m) by omega)

theorem checkName_chars {l : List UInt8} (hl : ∀ x ∈ l, isLabelChar x = true) (rest : List UInt8)
    (hd : d ≤ 63) :
    checkName (l ++ rest) false d =
      if 63 < d + l.length then .error .labelTooLong
      else (checkName rest false (d + l.length)).map (· + l.length) := by
  induction l generalizing d with
  | nil =>
    rw [nil_append, length_nil, if_neg (by omega)]
    cases checkName rest false d <;> rfl
  | cons c l ih =>
    rw [cons_append, checkName_char (hl c mem_cons_self), length_cons]
    rcases Nat.lt_or_ge 63 (d + 1) with hlong | hshort
    · rw [if_pos hlong, if_pos (by omega)]
    rw [if_neg (by omega), ih (fun x hx => hl x (mem_cons_of_mem _ hx)) hshort]
    rw [show d + 1 + l.length = d + (l.length + 1) by omega]
    split
    · rfl
    · rw [map_map_ok, Nat.add_comm 1]

theorem checkName_label (l : Label) (rest : List UInt8) (hd : d < 63) :
    checkName (l.val ++ rest) true d =
      if 63 < d + l.val.length then .error .labelTooLong
      else (checkName rest false (d + l.val.length)).map (· + l.val.length) := by
  obtain ⟨c, tail, hl, hc, htail, -⟩ := l.cases
  rw [hl, cons_append, length_cons]
  have hfirst : checkName (c :: (tail ++ rest)) true d =
      (checkName (tail ++ rest) false (d + 1)).map (· + 1) := by
    rcases hc with rfl | hc
    · rw [checkName]
      simp only [beq_self_eq_true, Bool.and_self, if_true, if_neg (show ¬63 < d + 1 by omega)]
    · rw [checkName_char hc, if_neg (by omega)]
  rw [hfirst, checkName_chars htail rest (by omega),
    show d + 1 + tail.length = d + (tail.length + 1) by omega]
  split
  · rfl
  · rw [map_map_ok, Nat.add_comm 1]

theorem checkName_dot (l : Label) (rest : List UInt8) (d : ℕ) :
    checkName (dot :: l.val ++ rest) false d =
      (checkName (l.val ++ rest) true 1).map (· + 1) := by
  rw [cons_append, checkName]
  simp only [Bool.false_and, Bool.false_eq_true, if_false, if_neg (l.append_ne_nil rest),
    if_neg (l.head_ne_dot rest), if_true]
  rfl

/-- The distance to the dot is one more than the length of the label, so the labels
behind a dot can only have 62 characters. -/
theorem checkName_dotted (ht : EndDot t) (labels : List Label) (d : ℕ) :
    checkName (dotted labels ++ t) false d =
      if ∀ l ∈ labels, l.val.length ≤ 62 then .ok (dotted labels).length
      else .error .labelTooLong := by
  induction labels generalizing d with
  | nil => rcases ht with rfl | rfl <;> rfl
  | cons l ls ih =>
    rw [dotted_cons, append_assoc, checkName_dot, checkName_label _ _ (by decide), ih]
    rcases Nat.lt_or_ge 62 l.val.length with hlong | hshort
    · rw [if_pos (by omega), if_neg fun h => absurd (h l mem_cons_self) (by omega)]
      rfl
    rw [if_neg (by omega), map_map_ok]
    simp only [forall_mem_cons, hshort, true_and]
    split
    · refine congrArg Except.ok ?_
      simp only [length_append, length_cons]
      omega
    · rfl

/-- The names that pass the check. -/
def Name.Encodable (name : Name) : Prop := ∀ l ∈ name.rest, l.val.length ≤ 62

instance (name : Name) : Decidable name.Encodable := by
  unfold Name.Encodable
  infer_instance

theorem checkName_text (name : Name) (ht : EndDot t) :
    checkName (name.text ++ t) true 0 =
      if name.Encodable then .ok name.text.length else .error .labelTooLong := by
  have hle := name.first.length_le
  rw [Name.text, append_assoc, checkName_label _ _ (by decide), if_neg (by omega),
    checkName_dotted ht]
  by_cases hrest : ∀ l ∈ name.rest, l.val.length ≤ 62
  · rw [if_pos hrest, if_pos (show name.Encodable from hrest), length_append,
      Nat.add_comm name.first.val.length]
    rfl
  · rw [if_neg hrest, if_neg (show ¬name.Encodable from hrest)]
    rfl

/-- The rest of a label whose first character was checked, and what is behind it. -/
def Rest (value : List UInt8) (d k : ℕ) : Prop :=
  ∃ (l : List UInt8) (labels : List Label) (t : List UInt8), value = l ++ dotted labels ++ t ∧
    (∀ x ∈ l, isLabelChar x = true) ∧ d + l.length ≤ 63 ∧ (∀ l ∈ labels, l.val.length ≤ 62) ∧
    EndDot t ∧ k = (l ++ dotted labels).length

/-- What passes the check from the beginning of a label on. -/
def Begin (value : List UInt8) (d k : ℕ) : Prop :=
  ∃ (l : Label) (labels : List Label) (t : List UInt8), value = l.val ++ dotted labels ++ t ∧
    d + l.val.length ≤ 63 ∧ (∀ l ∈ labels, l.val.length ≤ 62) ∧ EndDot t ∧
    k = (l.val ++ dotted labels).length

theorem exists_of_map_succ {x : Except EncodeError ℕ} (h : x.map (· + 1) = .ok k) :
    ∃ j, x = .ok j ∧ k = j + 1 := by
  cases x with
  | error e => cases h
  | ok j =>
    cases h
    exact ⟨j, rfl, rfl⟩

theorem Rest.cons (h : Rest value (d + 1) k) (hc : isLabelChar c = true) :
    Rest (c :: value) d (k + 1) := by
  obtain ⟨l, labels, t, rfl, hl, hlen, hlabels, ht, rfl⟩ := h
  refine ⟨c :: l, labels, t, rfl, forall_mem_cons.mpr ⟨hc, hl⟩, ?_, hlabels, ht, rfl⟩
  rw [length_cons]
  omega

theorem Rest.begin (h : Rest value (d + 1) k) (hc : c = underscoreChar ∨ isLabelChar c = true) :
    Begin (c :: value) d (k + 1) := by
  obtain ⟨l, labels, t, rfl, hl, hlen, hlabels, ht, rfl⟩ := h
  have hlabel : isLabel (c :: l) = true := by
    simp only [isLabel, Bool.and_eq_true, Bool.or_eq_true, beq_iff_eq, all_eq_true,
      decide_eq_true_eq]
    exact ⟨⟨hc, hl⟩, by omega⟩
  refine ⟨⟨c :: l, hlabel⟩, labels, t, rfl, ?_, hlabels, ht, rfl⟩
  rw [length_cons]
  omega

theorem Begin.dot (h : Begin value 1 k) (hd : d ≤ 63) : Rest (dot :: value) d (k + 1) := by
  obtain ⟨l, labels, t, rfl, hlen, hlabels, ht, rfl⟩ := h
  refine ⟨[], l :: labels, t, rfl, forall_mem_nil _, hd, ?_, ht, rfl⟩
  exact forall_mem_cons.mpr ⟨by omega, hlabels⟩

/-- What passes the check consists of labels. -/
theorem rest_of_checkName (hd : d ≤ 63) :
    (checkName value false d = .ok k → Rest value d k) ∧
      (value ≠ [] → value.head? ≠ some dot → checkName value true d = .ok k → Begin value d k) := by
  -- the check starts anew behind each dot, so the two parts need each other
  induction value generalizing d k with
  | nil =>
    refine ⟨fun h => ?_, fun h => absurd rfl h⟩
    cases h
    exact ⟨[], [], [], rfl, forall_mem_nil _, hd, forall_mem_nil _, .inl rfl, rfl⟩
  | cons c rest ih =>
    have hchar : ∀ u, isLabelChar c = true → checkName (c :: rest) u d = .ok k →
        ∃ j, Rest rest (d + 1) j ∧ k = j + 1 := by
      intro u hc h
      rw [checkName_char hc] at h
      split at h
      · cases h
      · obtain ⟨j, hj, rfl⟩ := exists_of_map_succ h
        exact ⟨j, (ih (by omega)).1 hj, rfl⟩
    refine ⟨fun h => ?_, fun _ hhead h => ?_⟩
    · by_cases hc : isLabelChar c = true
      · obtain ⟨j, hj, rfl⟩ := hchar _ hc h
        exact hj.cons hc
      rw [checkName] at h
      simp only [Bool.false_and, Bool.false_eq_true, if_false, hc, Bool.not_false] at h
      split at h
      next hdot =>
        subst hdot
        split at h
        next hrest =>
          cases h
          exact ⟨[], [], [dot], by rw [hrest]; rfl, forall_mem_nil _, hd,
            forall_mem_nil _, .inr rfl, rfl⟩
        next hrest =>
          split at h
          · cases h
          next hhead =>
            obtain ⟨j, hj, rfl⟩ := exists_of_map_succ h
            exact ((ih (by decide)).2 hrest hhead hj).dot hd
      · cases h
    · by_cases hc : isLabelChar c = true
      · obtain ⟨j, hj, rfl⟩ := hchar _ hc h
        exact hj.begin (.inr hc)
      rw [checkName] at h
      simp only [Bool.true_and, hc, Bool.not_false, if_true] at h
      split at h
      next hunderscore =>
        split at h
        · cases h
        · obtain ⟨j, hj, rfl⟩ := exists_of_map_succ h
          exact ((ih (by omega)).1 hj).begin (.inl (beq_iff_eq.mp hunderscore))
      · rw [if_neg (by simpa using hhead)] at h
        cases h

end Check

section Write

variable {buf : List UInt8} {pos : ℕ}

theorem writeLabels_chars {l : List UInt8} (hl : ∀ c ∈ l, c ≠ dot) (rest pre cur post : List UInt8)
    (hfits : l.length ≤ post.length) :
    writeLabels (l ++ rest) (pre ++ UInt8.ofNat cur.length :: cur ++ post) pre.length
        (pre.length + cur.length + 1) =
      writeLabels rest (pre ++ UInt8.ofNat (cur ++ l).length :: (cur ++ l) ++ post.drop l.length)
        pre.length (pre.length + (cur ++ l).length + 1) := by
  induction l generalizing cur post with
  | nil => simp
  | cons c l ih =>
    obtain _ | ⟨x, post⟩ := post
    · cases hfits
    have hdata : (pre ++ UInt8.ofNat cur.length :: cur ++ x :: post).set
        (pre.length + cur.length + 1) c = pre ++ UInt8.ofNat cur.length :: (cur ++ [c] ++ post) := by
      rw [set_append_right _ _ (by simp; omega)]
      simp [Nat.add_assoc]
    rw [cons_append, writeLabels, if_neg (hl c mem_cons_self), hdata]
    simp only [byte_append_cons, set_append_right _ _ (Nat.le_refl _), Nat.sub_self, set_cons_zero]
    have h := ih (fun c hc => hl c (mem_cons_of_mem _ hc)) (cur ++ [c]) post
      (Nat.le_of_succ_le_succ hfits)
    simp only [length_append, length_cons, length_nil, append_assoc, cons_append, nil_append,
      Nat.add_assoc, drop_succ_cons] at h ⊢
    rw [← UInt8.ofNat_one, ← UInt8.ofNat_add, h, Nat.add_comm 1]

theorem writeLabels_label (l : Label) (rest pre post : List UInt8)
    (hfits : l.val.length ≤ post.length) :
    writeLabels (l.val ++ rest) (pre ++ 0 :: post) pre.length (pre.length + 1) =
      writeLabels rest (pre ++ fields [l] ++ post.drop l.val.length) pre.length
        (pre.length + (fields [l]).length) := by
  have h := writeLabels_chars l.ne_dot rest pre [] post hfits
  simpa [Nat.add_assoc] using h

theorem writeLabels_labels (l : Label) (labels : List Label) (pre post : List UInt8)
    (hfits : (fields (l :: labels)).length ≤ post.length + 1) :
    writeLabels (l.val ++ dotted labels) (pre ++ 0 :: post) pre.length (pre.length + 1) =
      (pre ++ fields (l :: labels) ++ post.drop ((fields (l :: labels)).length - 1),
        pre.length + (fields (l :: labels)).length) := by
  induction labels generalizing l pre post with
  | nil =>
    rw [fields_cons, length_append, length_cons] at hfits
    rw [writeLabels_label _ _ _ _ (by omega)]
    simp [writeLabels]
  | cons l' ls ih =>
    have hlen : (fields (l :: l' :: ls)).length =
        (fields [l]).length + (fields (l' :: ls)).length := by
      rw [← length_append, ← fields_append]
      rfl
    have hone : (fields [l]).length = l.val.length + 1 := by simp
    have hpos : 0 < (fields (l' :: ls)).length := by simp
    obtain ⟨x, rest, hdrop⟩ : ∃ x rest, post.drop l.val.length = x :: rest := by
      refine exists_cons_of_ne_nil (ne_nil_of_length_pos ?_)
      rw [length_drop]
      omega
    have hset : (pre ++ fields [l] ++ x :: rest).set (pre.length + (fields [l]).length) 0 =
        pre ++ fields [l] ++ 0 :: rest := by
      rw [← length_append, set_append_right _ _ (Nat.le_refl _), Nat.sub_self, set_cons_zero]
    have hrest : rest = post.drop (l.val.length + 1) := by
      rw [← drop_drop, hdrop]
      rfl
    have h := ih l' (pre ++ fields [l]) rest
      (by rw [hrest, length_drop]; omega)
    rw [length_append] at h
    rw [writeLabels_label _ _ _ _ (by omega), dotted_cons, cons_append, hdrop, writeLabels,
      if_pos rfl, hset, h, hrest, drop_drop, hlen]
    refine Prod.ext ?_ (Nat.add_assoc ..)
    rw [append_assoc pre, ← fields_append, show l.val.length + 1 +
      ((fields (l' :: ls)).length - 1) = (fields [l]).length + (fields (l' :: ls)).length - 1 by omega]
    rfl

/-- The bytes of a name are written, but not the end of label byte. -/
theorem writeLabels_text (name : Name) (hfits : pos + name.text.length + 1 ≤ buf.length) :
    writeLabels name.text (buf.set pos 0) pos (pos + 1) =
      (splice buf pos (fields name.labels), pos + (fields name.labels).length) := by
  have hlen : (fields name.labels).length = name.text.length + 1 := by
    have := name.length_wire
    rw [wire, length_append, length_singleton] at this
    omega
  have hset : buf.set pos 0 = buf.take pos ++ 0 :: buf.drop (pos + 1) := by
    rw [set_eq_take_append_cons_drop, if_pos (by omega)]
  have hpos : (buf.take pos).length = pos := by
    rw [length_take]
    omega
  have h := writeLabels_labels name.first name.rest (buf.take pos) (buf.drop (pos + 1))
    (by rw [length_drop]; change (fields name.labels).length ≤ _; omega)
  rw [hpos] at h
  rw [Name.text, hset, h, drop_drop, splice]
  change (_ ++ List.drop (pos + 1 + ((fields name.labels).length - 1)) buf, _) = _
  rw [show pos + 1 + ((fields name.labels).length - 1) = pos + (fields name.labels).length by omega]
  rfl

theorem splice_fields_set (name : Name) (hfits : pos + name.text.length + 2 ≤ buf.length) :
    (splice buf pos (fields name.labels)).set (pos + (fields name.labels).length) 0 =
      splice buf pos (wire name.labels) := by
  have hlen := name.length_wire
  rw [wire, length_append, length_singleton] at hlen
  refine ext_getElem? fun i => ?_
  rw [getElem?_set, length_splice (by omega), getElem?_splice (by omega),
    getElem?_splice (by rw [wire, length_append, length_singleton]; omega), wire, length_append,
    length_singleton]
  split
  next h =>
    rw [if_pos (by omega), if_pos (by omega), getElem?_append_right (by omega), ← h]
    simp
  next h =>
    split
    · rw [if_pos (by omega), getElem?_append_left (by omega)]
    · rw [if_neg (by omega)]

/-- What is left of the `n` bytes at `pos` when they were compressed, or not. -/
def afterCompress (buf : List UInt8) (pos n : ℕ) : Option Compressed → Encoded
  | none => .written buf n
  | some c => .written c.buf (c.labelEnd - pos)

/-- A name that passes the check is written in the network format, and then it may be
compressed. -/
theorem frDnsLabelFromValueBox_text (name : Name) {t : List UInt8} (ht : EndDot t)
    (hencodable : name.Encodable) (hfits : pos + name.text.length + 2 ≤ buf.length)
    (compression : Bool) :
    frDnsLabelFromValueBox buf pos compression (name.text ++ t) = .ok
      (if compression = true ∧ pos ≠ 0 then
        afterCompress (splice buf pos (wire name.labels)) pos (wire name.labels).length
          (dnsLabelCompress 0 pos buf.length (splice buf pos (wire name.labels)) none pos)
      else .written (splice buf pos (wire name.labels)) (wire name.labels).length) := by
  have hwire := name.length_wire
  have hfields : (fields name.labels).length + 1 = (wire name.labels).length := by
    rw [wire, length_append, length_singleton]
  have hend : pos + (fields name.labels).length + 1 - pos = (wire name.labels).length := by omega
  unfold frDnsLabelFromValueBox
  rw [if_neg (ne_nil_of_length_pos (by omega)), if_neg (by omega), if_neg (name.text_ne_root t),
    if_neg (name.head_ne_dot t), checkName_text name ht, if_pos hencodable]
  simp only [bind, Except.bind, if_neg (show ¬buf.length < pos + name.text.length + 2 by omega),
    take_left, writeLabels_text name (show pos + name.text.length + 1 ≤ buf.length by omega),
    splice_fields_set name hfits, hend]
  have hlong : 2 < (wire name.labels).length := by
    have := name.length_pos
    omega
  by_cases h : compression = true ∧ pos ≠ 0
  · rw [if_pos h, if_pos (by simp [h, hlong]), length_splice (by omega)]
    cases dnsLabelCompress 0 pos buf.length (splice buf pos (wire name.labels)) none pos <;> rfl
  · rw [if_neg h, if_neg (by simpa [hlong] using h)]
    rfl

end Write

end FreeRadius.Dns
