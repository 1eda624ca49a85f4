import FreeRadius.Dns.RoundTrip

/-!
# Labels from hostile packets

`fr_dns_label_uncompressed_length` on arbitrary bytes. A pointer is followed by a label, and a
label adds to a length of no more than 255, so that the loop ends. No byte outside of the buffer
is read, and what is accepted is a name.
-/

namespace FreeRadius.Dns

open Library List

variable {rounds p current length q : ℕ} {first : Bool} {next : Option ℕ} {l : List UInt8}

section Checked

def readBytes (buf : List UInt8) (off n : ℕ) : Option (List UInt8) :=
  if off + n ≤ buf.length then some (slice buf off n) else none

/-- The loop of `fr_dns_label_uncompressed_length` once more, without a result if it reads a byte
outside of the buffer, or if it does not end in that many rounds. -/
def checkedLengthLoop (buf : List UInt8) (start : ℕ) :
    ℕ → ℕ → ℕ → ℕ → Bool → Option ℕ → Option (Except ℤ (ℕ × ℕ))
  | 0, _, _, _, _, _ => none
  | rounds + 1, p, current, length, atFirstLabel, next =>
    if buf.length ≤ p then some (.ok (length, next.getD p))
    else buf[p]?.bind fun b =>
      if b = 0 then
        some (.ok (if atFirstLabel then length + 1 else length,
          if current = start then p + 1 else next.getD (p + 1)))
      else if buf.length ≤ p + 1 then some (.error (-p))
      else if 63 < b ∧ b < 0xc0 then some (.error (-p))
      else if 63 < b then buf[p + 1]?.bind fun b₁ =>
        let q := pointerOffset b b₁
        if p ≤ q ∨ current ≤ q then some (.error (-p))
        else buf[q]?.bind fun target =>
          if 63 < target ∨ target = 0 then some (.error (-p))
          else checkedLengthLoop buf start rounds q q length atFirstLabel
            (if current = start then some (p + 2) else next)
      else
        let n := b.toNat
        if buf.length < p + n + 1 then some (.error (-p))
        else
          let length := (if atFirstLabel then length else length + 1) + n
          if 255 < length then some (.error (-p))
          else (readBytes buf (p + 1) n).bind fun label =>
            match verifyLabel label (p + 1) with
            | some q => some (.error (-q))
            | none => checkedLengthLoop buf start rounds (p + n + 1) current length false next

variable {buf : List UInt8} {start : ℕ}

theorem getElem?_eq_byte {i : ℕ} (h : i < buf.length) : buf[i]? = some (byte buf i) := by
  rw [byte, getD_eq_getElem?_getD, getElem?_eq_getElem h]
  rfl

theorem toNat_pos_of_ne_zero {b : UInt8} (h : b ≠ 0) : 0 < b.toNat :=
  Nat.pos_of_ne_zero fun hzero => h (UInt8.toNat.inj hzero)

/-- Every label takes a byte of the length, and there may be one pointer in front of it. `fresh`
tells that a pointer has been followed just now. -/
theorem checkedLengthLoop_eq (fresh : Bool)
    (hfresh : fresh = true → p < buf.length ∧ byte buf p ≠ 0 ∧ ¬63 < byte buf p)
    (hlength : length ≤ 255) (hrounds : 2 * (256 - length) + (if fresh then 0 else 1) ≤ rounds) :
    checkedLengthLoop buf start rounds p current length first next =
      some (uncompressedLengthLoop buf start rounds p current length first next) := by
  induction rounds generalizing p current length first next fresh with
  | zero => omega
  | succ rounds ih =>
    rw [checkedLengthLoop, uncompressedLengthLoop]
    by_cases hend : buf.length ≤ p
    · rw [if_pos hend, if_pos hend]
    rw [if_neg hend, if_neg hend, getElem?_eq_byte (by omega), Option.bind_some]
    by_cases hzero : byte buf p = 0
    · rw [if_pos hzero, if_pos hzero]
    rw [if_neg hzero, if_neg hzero]
    by_cases hone : buf.length ≤ p + 1
    · rw [if_pos hone, if_pos hone]
    rw [if_neg hone, if_neg hone]
    by_cases hbits : 63 < byte buf p ∧ byte buf p < 0xc0
    · rw [if_pos hbits, if_pos hbits]
    rw [if_neg hbits, if_neg hbits]
    by_cases hpointer : 63 < byte buf p
    · -- a pointer cannot be where another one led to
      have hnot : fresh = false := by
        by_contra h
        exact (hfresh (Bool.not_eq_false _ ▸ h)).2.2 hpointer
      rw [hnot] at hrounds
      rw [if_pos hpointer, if_pos hpointer, getElem?_eq_byte (by omega), Option.bind_some]
      by_cases hback : p ≤ pointerOffset (byte buf p) (byte buf (p + 1)) ∨
          current ≤ pointerOffset (byte buf p) (byte buf (p + 1))
      · rw [if_pos hback, if_pos (hback.elim .inl fun h => .inr (.inl h))]
      obtain ⟨hlt, hbefore⟩ := not_or.mp hback
      rw [if_neg hback, getElem?_eq_byte (by omega), Option.bind_some]
      by_cases htarget : 63 < byte buf (pointerOffset (byte buf p) (byte buf (p + 1))) ∨
          byte buf (pointerOffset (byte buf p) (byte buf (p + 1))) = 0
      · rw [if_pos htarget, if_pos (.inr (.inr htarget))]
      obtain ⟨hlabel, hnonzero⟩ := not_or.mp htarget
      rw [if_neg htarget, if_neg (not_or.mpr ⟨hlt, not_or.mpr ⟨hbefore, htarget⟩⟩)]
      refine ih true (fun _ => ⟨by omega, hnonzero, hlabel⟩) hlength ?_
      simp only [Bool.false_eq_true, if_false] at hrounds
      simp only [if_true]
      omega
    · rw [if_neg hpointer, if_neg hpointer]
      have hpos := toNat_pos_of_ne_zero hzero
      by_cases hfits : buf.length < p + (byte buf p).toNat + 1
      · rw [if_pos hfits, if_pos hfits]
      rw [if_neg hfits, if_neg hfits]
      have hmore : length + 1 ≤ (if first then length else length + 1) + (byte buf p).toNat := by
        split <;> omega
      by_cases hlong : 255 < (if first then length else length + 1) + (byte buf p).toNat
      · rw [if_pos hlong, if_pos hlong]
      rw [if_neg hlong, if_neg hlong, readBytes, if_pos (by omega), Option.bind_some]
      cases verifyLabel (slice buf (p + 1) (byte buf p).toNat) (p + 1) with
      | some q => rfl
      | none =>
        refine ih false (fun heq => by cases heq) (by omega) ?_
        simp only [Bool.false_eq_true, if_false]
        split at hrounds <;> omega

end Checked

section Names

variable {buf : List UInt8} {start : ℕ}

/-- The labels that are read from `p` on, where `segment` is where the labels in a row began,
and the offset behind them. -/
inductive NameAt (buf : List UInt8) : ℕ → ℕ → List Label → ℕ → Prop
  /-- The end of label byte may be missing at the end of the buffer. -/
  | bufferEnd {segment : ℕ} : NameAt buf segment buf.length [] buf.length
  | root {segment p : ℕ} (hp : p < buf.length) (hbyte : byte buf p = 0) :
    NameAt buf segment p [] (p + 1)
  | label {segment p after : ℕ} {labels : List Label} (l : Label)
      (hbyte : byte buf p = UInt8.ofNat l.val.length)
      (hfits : p + l.val.length + 1 ≤ buf.length) (hlabel : slice buf (p + 1) l.val.length = l.val)
      (hrest : NameAt buf segment (p + l.val.length + 1) labels after) :
    NameAt buf segment p (l :: labels) after
  /-- A pointer leads to before the labels that it is behind. -/
  | pointer {segment p q after : ℕ} {labels : List Label} (hp : p + 1 < buf.length)
      (hbyte : 0xc0 ≤ byte buf p) (hq : q = pointerOffset (byte buf p) (byte buf (p + 1)))
      (hback : q < p) (hbefore : q < segment) (htarget : NameAt buf q q labels after) :
    NameAt buf segment p labels (p + 2)

def text : List Label → List UInt8
  | [] => [dot]
  | l :: labels => l.val ++ dotted labels

theorem invalidCharacter_eq_none (h : invalidCharacter l q = none) :
    ∀ x ∈ l, isLabelChar x = true := by
  induction l generalizing q with
  | nil => exact nofun
  | cons c l ih =>
    rw [invalidCharacter] at h
    split at h
    · next hc =>
      intro x hx
      rcases List.mem_cons.mp hx with rfl | hx
      · exact hc
      · exact ih h x hx
    · cases h

theorem isLabel_of_verifyLabel (h : verifyLabel l q = none) (hne : l ≠ []) (hlen : l.length ≤ 63) :
    isLabel l = true := by
  rcases l with _ | ⟨c, rest⟩
  · exact absurd rfl hne
  rw [verifyLabel] at h
  have hchars : (c = underscoreChar ∨ isLabelChar c = true) ∧ ∀ x ∈ rest, isLabelChar x = true := by
    split at h
    · next hc => exact ⟨.inl hc, invalidCharacter_eq_none h⟩
    · have hall := invalidCharacter_eq_none h
      exact ⟨.inr (hall c mem_cons_self), fun x hx => hall x (mem_cons_of_mem _ hx)⟩
  rw [length_cons] at hlen
  simp only [isLabel, Bool.and_eq_true, Bool.or_eq_true, beq_iff_eq, decide_eq_true_eq,
    all_eq_true]
  exact ⟨hchars, hlen⟩

def addedLength (first : Bool) (length : ℕ) (labels : List Label) : ℕ :=
  if first then (text labels).length else length + (dotted labels).length

/-- Where the loop is. While it is in the labels that it began with, the offset behind the name is not
set yet. -/
structure Reading (buf : List UInt8) (start p current length : ℕ) (first : Bool) (next : Option ℕ) :
    Prop where
  isFirst : first = true → length = 0 ∧ p < buf.length
  le_end : p ≤ buf.length
  length_le : length ≤ 255
  current_le : current ≤ start
  unset : current = start → next = none
  isSet : current ≠ start → ∃ x, next = some x

/-- There is a name of this length, and what is behind it is answered. -/
def IsName (buf : List UInt8) (start p current length : ℕ) (first : Bool) (next : Option ℕ)
    (n after : ℕ) : Prop :=
  ∃ labels behind, NameAt buf current p labels behind ∧ n = addedLength first length labels ∧
    n ≤ 255 ∧ (current = start → after = behind) ∧ (current ≠ start → next = some after)

section Cases

variable {n after : ℕ} (h : Reading buf start p current length first next)

include h

theorem Reading.next_eq (x : ℕ) (hne : current ≠ start) : next = some (next.getD x) := by
  obtain ⟨y, rfl⟩ := h.isSet hne
  rfl

theorem Reading.bufferEnd (hend : buf.length ≤ p) :
    IsName buf start p current length first next length (next.getD p) := by
  obtain rfl : p = buf.length := Nat.le_antisymm h.le_end hend
  have hnot : first = false := Bool.eq_false_iff.mpr fun hf =>
    Nat.lt_irrefl _ (h.isFirst hf).2
  refine ⟨[], _, .bufferEnd, ?_, h.length_le, fun heq => ?_, h.next_eq _⟩
  · rw [hnot]
    rfl
  · rw [h.unset heq]
    rfl

theorem Reading.root (hp : p < buf.length) (hzero : byte buf p = 0) :
    IsName buf start p current length first next (if first then length + 1 else length)
      (if current = start then p + 1 else next.getD (p + 1)) := by
  refine ⟨[], _, .root hp hzero, ?_, ?_, fun heq => if_pos heq, fun hne => ?_⟩
  · unfold addedLength
    split
    · next hf => rw [(h.isFirst hf).1]; rfl
    · rfl
  · split
    · next hf => rw [(h.isFirst hf).1]; decide
    · exact h.length_le
  · rw [if_neg hne]
    exact h.next_eq _ hne

/-- A pointer leads to another place where the loop may be, and a name there is one here. -/
theorem Reading.pointer (hp : p + 1 < buf.length) (hbyte : 0xc0 ≤ byte buf p)
    (hq : q = pointerOffset (byte buf p) (byte buf (p + 1))) (hback : q < p) (hbefore : q < current) :
    Reading buf start q q length first (if current = start then some (p + 2) else next) ∧
      (IsName buf start q q length first (if current = start then some (p + 2) else next) n after →
        IsName buf start p current length first next n after) := by
  have hcurrent := h.current_le
  refine ⟨⟨fun hf => ⟨(h.isFirst hf).1, by omega⟩, by omega, h.length_le, by omega, by omega,
    fun _ => ?_⟩, ?_⟩
  · split
    · exact ⟨_, rfl⟩
    · next hne => exact h.isSet hne
  rintro ⟨labels, behind, hname, hn, hle, -, hnext⟩
  have hafter := hnext (by omega)
  refine ⟨labels, p + 2, .pointer hp hbyte hq hback hbefore hname, hn, hle, fun heq => ?_,
    fun hne => ?_⟩
  · rw [if_pos heq] at hafter
    exact (Option.some.inj hafter).symm
  · rwa [if_neg hne] at hafter

theorem Reading.label {length' : ℕ}
    (hlength : length' = (if first then length else length + 1) + (byte buf p).toNat) (hzero : byte buf p ≠ 0) (hshort : ¬63 < byte buf p)
    (hfits : p + (byte buf p).toNat + 1 ≤ buf.length)
    (hverify : verifyLabel (slice buf (p + 1) (byte buf p).toNat) (p + 1) = none)
    (hlong : length' ≤ 255) :
    Reading buf start (p + (byte buf p).toNat + 1) current length' false next ∧
      (IsName buf start (p + (byte buf p).toNat + 1) current length' false next n after →
        IsName buf start p current length first next n after) := by
  refine ⟨⟨nofun, hfits, hlong, h.current_le, h.unset, h.isSet⟩, ?_⟩
  rintro ⟨labels, behind, hname, hn, hle, hbehind⟩
  have hbyte : (byte buf p).toNat ≤ 63 := UInt8.le_iff_toNat_le.mp (UInt8.not_lt.mp hshort)
  have hlen : (slice buf (p + 1) (byte buf p).toNat).length = (byte buf p).toNat :=
    length_slice (by omega)
  have hne : slice buf (p + 1) (byte buf p).toNat ≠ [] := by
    rw [← length_pos_iff, hlen]
    exact toNat_pos_of_ne_zero hzero
  obtain ⟨l, hl⟩ : ∃ l : Label, l.val = slice buf (p + 1) (byte buf p).toNat :=
    ⟨⟨_, isLabel_of_verifyLabel hverify hne (by rw [hlen]; exact hbyte)⟩, rfl⟩
  have hllen : l.val.length = (byte buf p).toNat := by rw [hl, hlen]
  rw [← hllen] at hname hlength hfits
  refine ⟨l :: labels, behind, .label l ?_ hfits ?_ hname, ?_, hle, hbehind⟩
  · rw [hllen, UInt8.ofNat_toNat]
  · rw [hllen, hl]
  rw [hn, hlength]
  unfold addedLength
  cases first with
  | true =>
    rw [(h.isFirst rfl).1]
    simp [text]
  | false =>
    simp only [Bool.false_eq_true, if_false, dotted_cons, length_append, length_cons]
    omega

end Cases

/-- The loop accepts names only. -/
theorem nameAt_of_loop {n after : ℕ} (hreading : Reading buf start p current length first next)
    (h : uncompressedLengthLoop buf start rounds p current length first next = .ok (n, after)) :
    IsName buf start p current length first next n after := by
  induction rounds generalizing p current length first next with
  | zero => cases h
  | succ rounds ih =>
    rw [uncompressedLengthLoop] at h
    split at h
    · next hend =>
      cases h
      exact hreading.bufferEnd hend
    next hend =>
    split at h
    · next hzero =>
      cases h
      exact hreading.root (Nat.not_le.mp hend) hzero
    next hzero =>
    split at h
    · cases h
    next hone =>
    split at h
    · cases h
    next hbits =>
    dsimp only at h
    split at h
    · next hpointer =>
      split at h
      · cases h
      next hvalid =>
      have hbyte : 0xc0 ≤ byte buf p := UInt8.not_lt.mp fun hlt => hbits ⟨hpointer, hlt⟩
      obtain ⟨htarget, hname⟩ :=
        hreading.pointer (Nat.not_le.mp hone) hbyte rfl (by omega) (by omega)
      exact hname (ih htarget h)
    · next hpointer =>
      split at h
      · cases h
      next hfits =>
      obtain ⟨length', hlength⟩ : ∃ length', length' =
        (if first then length else length + 1) + (byte buf p).toNat := ⟨_, rfl⟩
      rw [← hlength] at h
      split at h
      · cases h
      next hlong =>
      split at h
      · cases h
      next hverify =>
      obtain ⟨hrest, hname⟩ := hreading.label hlength hzero hpointer (Nat.not_lt.mp hfits) hverify
        (Nat.not_lt.mp hlong)
      exact hname (ih hrest h)

/-- `fr_dns_label_uncompressed_length` with checks on what it reads. -/
def checkedUncompressedLength (buf : List UInt8) (start : ℕ) : Option (Except ℤ (ℕ × ℕ)) :=
  if buf.length ≤ start then some (.error 0)
  else checkedLengthLoop buf start uncompressedRounds start start 0 true none

/-- For arbitrary bytes, the function ends and reads no byte outside of the buffer. If it returns a
length, this is the length of a name of valid labels, which it finds by going backwards, and the
offset that it returns is the one behind the name. -/
theorem frDnsLabelUncompressedLength_safe (buf : List UInt8) {start : ℕ} (h : start < buf.length) :
    checkedUncompressedLength buf start = some (frDnsLabelUncompressedLength buf start) ∧
      ∀ n next, frDnsLabelUncompressedLength buf start = .ok (n, next) →
        ∃ labels, NameAt buf start start labels next ∧ n = (text labels).length ∧ 0 < n ∧ n ≤ 255 := by
  have hstart : ¬buf.length ≤ start := Nat.not_le.mpr h
  constructor
  · rw [checkedUncompressedLength, frDnsLabelUncompressedLength, if_neg hstart, if_neg hstart]
    exact checkedLengthLoop_eq false (fun heq => by cases heq) (by decide) (by decide)
  intro n next hok
  rw [frDnsLabelUncompressedLength, if_neg hstart] at hok
  obtain ⟨labels, behind, hname, hn, hle, hnext, -⟩ := nameAt_of_loop
    ⟨fun _ => ⟨rfl, h⟩, Nat.le_of_lt h, by decide, Nat.le_refl _, fun _ => rfl, absurd rfl⟩ hok
  obtain rfl := hnext rfl
  refine ⟨labels, hname, hn, ?_, hle⟩
  rw [hn]
  cases labels with
  | nil => exact Nat.one_pos
  | cons l labels =>
    have := l.length_pos
    change 0 < (l.val ++ dotted labels).length
    rw [length_append]
    omega

/-- A pointer back to a label, behind another label. -/
theorem frDnsLabelUncompressedLength_safe_pointer :
    frDnsLabelUncompressedLength [1, 0x61, 0, 1, 0x62, 0xc0, 0] 3 = .ok (3, 7) ∧
      ∃ labels, NameAt [1, 0x61, 0, 1, 0x62, 0xc0, 0] 3 3 labels 7 ∧ 3 = (text labels).length ∧
        0 < 3 ∧ 3 ≤ 255 := by
  have hok : frDnsLabelUncompressedLength [1, 0x61, 0, 1, 0x62, 0xc0, 0] 3 = .ok (3, 7) := by
    decide +kernel
  exact ⟨hok, (frDnsLabelUncompressedLength_safe _ (by decide)).2 3 7 hok⟩

end Names

end FreeRadius.Dns
