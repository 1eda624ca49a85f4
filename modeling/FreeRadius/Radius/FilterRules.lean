import FreeRadius.Library.Pieces
import FreeRadius.Radius.Leaf

/-!
# NAS-Filter-Rules

The rules are strings with a zero byte between them. What they are together is cut into pieces
of 253 bytes, and each of them is an attribute.
-/

namespace FreeRadius.Radius

open Library List

def frame (attr : UInt8) (value : List UInt8) : List UInt8 :=
  attr :: UInt8.ofNat (2 + value.length) :: value

@[simp] theorem length_frame (attr : UInt8) (value : List UInt8) :
    (frame attr value).length = 2 + value.length := by
  simp only [frame, length_cons]
  omega

def frames (attr : UInt8) (values : List (List UInt8)) : List UInt8 := values.flatMap (frame attr)

@[simp] theorem frames_nil (attr : UInt8) : frames attr [] = [] := rfl

@[simp] theorem frames_cons (attr : UInt8) (v : List UInt8) (vs : List (List UInt8)) :
    frames attr (v :: vs) = frame attr v ++ frames attr vs := flatMap_cons

/-- Rules behind another one. -/
def separated (rules : List (List UInt8)) : List UInt8 := rules.flatMap (0 :: ·)

@[simp] theorem separated_nil : separated [] = [] := rfl

@[simp] theorem separated_cons (rule : List UInt8) (rules : List (List UInt8)) :
    separated (rule :: rules) = 0 :: (rule ++ separated rules) := flatMap_cons

section Encode

theorem set_length (done rest : List UInt8) (attr x y : UInt8) :
    (done ++ attr :: x :: rest).set (done.length + 1) y = done ++ attr :: y :: rest := by
  rw [set_append_right _ _ (Nat.le_succ _), Nat.succ_sub le_rfl, Nat.sub_self]
  rfl

variable {l rule : List UInt8} {ps rules : List (List UInt8)} {w n total room : ℕ} {stuck : Bool}
  {attr : UInt8}

theorem length_frames (attr : UInt8) (h : Pieces w l ps) :
    2 + l.length ≤ (frames attr ps).length := by
  induction h with
  | last hne hle => simp
  | full ha h ih =>
    simp only [frames_cons, length_append, length_frame]
    omega

section Steps

variable {attr x : UInt8} {room rounds : ℕ} {p cur done : List UInt8} {rules : List (List UInt8)}

theorem length_unfinished : (done ++ attr :: x :: cur).length = done.length + 2 + cur.length := by
  simp only [length_append, length_cons]
  omega

theorem filterRuleLoop_fits (hp : p ≠ []) (hfits : cur.length + p.length ≤ 253) :
    filterRuleLoop attr room (rounds + 1) p rules done.length (2 + cur.length)
        (done ++ attr :: x :: cur) =
      if room < done.length + 2 + (cur ++ p).length then .error .noRoom
      else filterRuleLoop attr room rounds [] rules done.length (2 + (cur ++ p).length)
        (done ++ attr :: UInt8.ofNat (2 + (cur ++ p).length) :: (cur ++ p)) := by
  rw [length_append]
  have hbuf : (done ++ attr :: x :: cur ++ p).set (done.length + 1)
      (UInt8.ofNat (2 + cur.length + p.length)) =
        done ++ attr :: UInt8.ofNat (2 + (cur.length + p.length)) :: (cur ++ p) := by
    rw [append_assoc, cons_append, cons_append, set_length, Nat.add_assoc]
  rw [filterRuleLoop.eq_def]
  simp only [ne_eq, hp, not_false_eq_true, if_true, length_unfinished, hbuf]
  rw [if_pos (by omega), Nat.add_assoc 2, Nat.add_assoc (done.length + 2)]

theorem filterRuleLoop_overflow (hcur : cur.length ≤ 253) (hp : 253 < cur.length + p.length) :
    filterRuleLoop attr room (rounds + 1) p rules done.length (2 + cur.length)
        (done ++ attr :: x :: cur) =
      if room < done.length + 257 then .error .noRoom
      else filterRuleLoop attr room rounds (p.drop (253 - cur.length)) rules
        (done ++ frame attr (cur ++ p.take (253 - cur.length))).length (2 + ([] : List UInt8).length)
        (done ++ frame attr (cur ++ p.take (253 - cur.length)) ++ attr :: 2 :: []) := by
  have hne : p ≠ [] := by
    rintro rfl
    rw [length_nil] at hp
    omega
  have hfull : (cur ++ p.take (253 - cur.length)).length = 253 := by
    rw [length_append, length_take]
    omega
  have hbuf : (done ++ attr :: x :: cur ++ p.take (253 - cur.length)).set (done.length + 1) 255 =
      done ++ frame attr (cur ++ p.take (253 - cur.length)) := by
    rw [append_assoc, cons_append, cons_append, set_length, frame, hfull]
    rfl
  have hlen : (done ++ frame attr (cur ++ p.take (253 - cur.length))).length = done.length + 255 := by
    rw [length_append, length_frame, hfull]
  have hfrag : 255 - (2 + cur.length) = 253 - cur.length := by omega
  rw [filterRuleLoop.eq_def]
  simp only [ne_eq, hne, not_false_eq_true, if_true, length_unfinished, hfrag, hbuf, hlen]
  rw [if_neg (by omega)]
  by_cases hroom : room < done.length + 255
  · rw [if_pos (by omega), if_pos (by omega)]
  · rw [if_neg (by omega)]
    rfl

theorem filterRuleLoop_zero (hcur : cur.length < 253) :
    filterRuleLoop attr room (rounds + 1) [] (p :: rules) done.length (2 + cur.length)
        (done ++ attr :: x :: cur) =
      if room < done.length + 2 + (cur ++ [0]).length then .error .noRoom
      else filterRuleLoop attr room rounds p rules done.length (2 + (cur ++ [0]).length)
        (done ++ attr :: UInt8.ofNat (2 + (cur ++ [0]).length) :: (cur ++ [0])) := by
  have hbuf : (done ++ attr :: x :: cur ++ [0]).set (done.length + 1)
      (UInt8.ofNat (2 + cur.length + 1)) =
        done ++ attr :: UInt8.ofNat (2 + (cur ++ [0]).length) :: (cur ++ [0]) := by
    rw [append_assoc, cons_append, cons_append, set_length, length_append, length_singleton,
      Nat.add_assoc]
  rw [filterRuleLoop.eq_def]
  simp only [ne_eq, not_true, if_false, length_unfinished, hbuf]
  rw [if_pos (by omega), length_append, length_singleton, Nat.add_assoc 2,
    Nat.add_assoc (done.length + 2)]

end Steps

theorem toNat_length (h : n ≤ 253) : (UInt8.ofNat (2 + n)).toNat = 2 + n :=
  UInt8.toNat_ofNat_of_lt' (show 2 + n < 256 by omega)

theorem length_ne_zero (h : n ≤ 253) : UInt8.ofNat (2 + n) ≠ 0 := by
  intro hzero
  have := toNat_length h
  rw [hzero, UInt8.toNat_zero] at this
  omega

/-- The last rule is empty, and the zero byte in front of it does not fit into the attribute
that it would end. -/
def overfull : List (List UInt8) → Bool
  | [] => false
  | rule :: rules =>
    rules.getLast? = some [] && (rule ++ separated rules).length % radiusMaxStringLength = 1

/-- Whether the attribute that is filled last gets no length. There are `total` bytes in it and
for the rules, and `stuck` tells what happens if there are no rules. -/
def unfinished (total : ℕ) (rules : List (List UInt8)) (stuck : Bool) : Bool :=
  match rules.getLast? with
  | none => stuck
  | some rule => rule = [] && total % 253 = 1

theorem unfinished_cons {stuck' : Bool} (h : rules = [] → (rule = [] && total % 253 = 1) = stuck') :
    unfinished total (rule :: rules) stuck = unfinished total rules stuck' := by
  cases rules with
  | nil => exact h rfl
  | cons r rs =>
    rw [unfinished, unfinished, getLast?_cons_cons]
    rfl

theorem unfinished_mod {total' : ℕ} (rules : List (List UInt8)) (stuck : Bool)
    (h : total % 253 = total' % 253) :
    unfinished total rules stuck = unfinished total' rules stuck := by
  rw [unfinished, unfinished, h]

theorem overfull_cons (rule : List UInt8) (rules : List (List UInt8)) :
    overfull (rule :: rules) = unfinished (rule ++ separated rules).length rules false := by
  rw [overfull, unfinished]
  cases rules.getLast? with
  | none => rfl
  | some r => by_cases hr : r = [] <;> simp [hr, radiusMaxStringLength]

/-- Attributes of which the last one has no length if it is `stuck`. -/
def framesTo (attr : UInt8) (stuck : Bool) : List (List UInt8) → List UInt8
  | [] => []
  | [v] => if stuck then attr :: 0 :: v else frame attr v
  | v :: w :: vs => frame attr v ++ framesTo attr stuck (w :: vs)

theorem framesTo_cons {v : List UInt8} {vs : List (List UInt8)} (h : Pieces w l vs) :
    framesTo attr stuck (v :: vs) = frame attr v ++ framesTo attr stuck vs := by
  cases h <;> rfl

theorem length_frames_cons (attr : UInt8) (done v : List UInt8) (vs : List (List UInt8)) :
    done.length + (frames attr (v :: vs)).length =
      (done ++ frame attr v).length + (frames attr vs).length := by
  rw [frames_cons, length_append, length_append, Nat.add_assoc]

theorem framesTo_false (attr : UInt8) (vs : List (List UInt8)) :
    framesTo attr false vs = frames attr vs := by
  induction vs with
  | nil => rfl
  | cons v vs ih =>
    rw [frames_cons, ← ih]
    cases vs with
    | nil => exact (append_nil _).symm
    | cons w vs => rfl

section Loop

variable {rounds : ℕ} {cur done p : List UInt8} {x : UInt8}

/-- Where the loop is. The attribute that is being filled is behind those which are `done`. It has the
right length field unless something is going to be written to it, or a zero byte is all that it holds. -/
structure Filling (room rounds : ℕ) (cur done p : List UInt8) (x : UInt8)
    (rules ps : List (List UInt8)) : Prop where
  cur_le : cur.length ≤ 253
  pieces : Pieces 253 (cur ++ (p ++ separated rules)) ps
  begun : p = [] → cur ≠ [] ∧ done.length + 2 + cur.length ≤ room ∧
    (x = UInt8.ofNat (2 + cur.length) ∨ x = 0 ∧ cur = [0])
  rounds_le : p.length + rules.flatten.length + 2 * rules.length + 1 +
    (if cur.length = 253 ∧ p ≠ [] then 1 else 0) ≤ rounds

/-- The attributes are written from here on if there is room for them. -/
def Fills (attr : UInt8) (room rounds : ℕ) (cur done p : List UInt8) (x : UInt8)
    (rules ps : List (List UInt8)) : Prop :=
  filterRuleLoop attr room rounds p rules done.length (2 + cur.length) (done ++ attr :: x :: cur) =
    if room < done.length + (frames attr ps).length then .error .noRoom
    else .ok (done ++ framesTo attr (unfinished (cur.length + p.length + (separated rules).length)
      rules (p = [] && x = 0)) ps)

theorem Filling.length_le (h : Filling room rounds cur done p x rules ps) (attr : UInt8) :
    2 + (cur.length + (p.length + (separated rules).length)) ≤ (frames attr ps).length := by
  have hmore := length_frames attr h.pieces
  rwa [length_append, length_append] at hmore

theorem fills_end (h : Filling room (rounds + 1) cur done [] x [] ps) :
    Fills attr room (rounds + 1) cur done [] x [] ps := by
  obtain ⟨-, hfit, hlength⟩ := h.begun rfl
  have hps := h.pieces
  rw [separated_nil, append_nil, append_nil] at hps
  rw [Fills, hps.eq_singleton h.cur_le, frames_cons, frames_nil, append_nil, length_frame,
    if_neg (by omega), filterRuleLoop.eq_def]
  rcases hlength with rfl | ⟨rfl, rfl⟩
  · simp [unfinished, framesTo, frame]
  · rfl

variable (ih : ∀ {cur done p x rules ps}, Filling room rounds cur done p x rules ps →
  Fills attr room rounds cur done p x rules ps)

include ih

/-- The zero byte in front of the next rule fits. -/
theorem fills_zero (h : Filling room (rounds + 1) cur done [] x (rule :: rules) ps)
    (hlt : cur.length < 253) : Fills attr room (rounds + 1) cur done [] x (rule :: rules) ps := by
  have hrounds := h.rounds_le
  have hps := h.pieces
  have hmore := h.length_le attr
  have hpos : 0 < cur.length := length_pos_iff.mpr (h.begun rfl).1
  have hcur : (cur ++ [0]).length = cur.length + 1 := length_append
  rw [length_cons, flatten_cons, length_append, length_nil] at hrounds
  rw [nil_append, separated_cons] at hps
  rw [separated_cons, length_cons, length_append, length_nil] at hmore
  rw [Fills, filterRuleLoop_zero hlt]
  split
  · rw [if_pos (by omega)]
  have htotal : cur.length + ([] : List UInt8).length + (separated (rule :: rules)).length =
      (cur ++ [0]).length + rule.length + (separated rules).length := by
    simp only [separated_cons, length_cons, length_append, length_nil]
    omega
  rw [htotal, unfinished_cons]
  · refine @ih (cur ++ [0]) done rule _ rules ps ⟨by omega, by rwa [append_assoc],
      fun _ => ⟨by simp, by omega, .inl rfl⟩, ?_⟩
    split <;> omega
  rintro rfl
  rw [decide_eq_false (length_ne_zero (by omega)), Bool.and_false, ← Bool.decide_and, decide_eq_false]
  rintro ⟨rfl, hmod⟩
  rw [hcur, length_nil, separated_nil, length_nil] at hmod
  omega

/-- The attribute is full when the next rule begins. -/
theorem fills_next (h : Filling room (rounds + 1) cur done [] x (rule :: rules) ps)
    (hfull : cur.length = 253) :
    Fills attr room (rounds + 1) cur done [] x (rule :: rules) ps := by
  have hrounds := h.rounds_le
  have hps := h.pieces
  rw [length_cons, flatten_cons, length_append, length_nil] at hrounds
  rw [nil_append, separated_cons] at hps
  obtain ⟨-, hfit, hlength⟩ := h.begun rfl
  obtain rfl : x = UInt8.ofNat (2 + cur.length) := by
    rcases hlength with hlength | ⟨-, rfl⟩
    · exact hlength
    · exact absurd hfull (by decide)
  obtain ⟨qs, rfl, hqs⟩ := hps.eq_cons hfull (cons_ne_nil _ _)
  have hdone : (done ++ frame attr cur).length = done.length + 255 := by
    rw [length_append, length_frame, hfull]
  have hmore := length_frames attr hqs
  rw [length_cons, length_append] at hmore
  change filterRuleLoop attr room (rounds + 1) [] (rule :: rules) done.length (2 + cur.length)
    (done ++ frame attr cur) = _
  rw [filterRuleLoop.eq_def]
  simp only [ne_eq, not_true, if_false, hdone]
  rw [if_neg (by omega), ← hdone, length_frames_cons, framesTo_cons hqs, ← append_assoc]
  split
  · rw [if_pos (by omega)]
  have htotal : (cur.length + ([] : List UInt8).length + (separated (rule :: rules)).length) % 253 =
      ([(0 : UInt8)].length + rule.length + (separated rules).length) % 253 := by
    simp only [separated_cons, length_cons, length_append, length_nil]
    omega
  rw [unfinished_mod _ _ htotal, unfinished_cons]
  · refine @ih [0] _ _ _ _ _ ⟨by decide, hqs,
      fun _ => ⟨by simp, by rw [length_singleton]; omega, .inr ⟨rfl, rfl⟩⟩, ?_⟩
    rw [if_neg (by simp)]
    omega
  · rintro rfl
    rw [← Bool.decide_and, ← Bool.decide_and, decide_eq_decide]
    refine and_congr_right fun hrule => ?_
    subst hrule
    decide

/-- The rest of a rule is longer than the attribute has room for. -/
theorem fills_overflow (h : Filling room (rounds + 1) cur done p x rules ps) (hp : p ≠ [])
    (hlong : 253 < cur.length + p.length) : Fills attr room (rounds + 1) cur done p x rules ps := by
  have hcur := h.cur_le
  have hps := h.pieces
  have hrounds := h.rounds_le
  have hfull : (cur ++ p.take (253 - cur.length)).length = 253 := by
    rw [length_append, length_take]
    omega
  have hrest : p.drop (253 - cur.length) ≠ [] := by
    rw [ne_eq, drop_eq_nil_iff]
    omega
  have hsplit : cur ++ (p ++ separated rules) = (cur ++ p.take (253 - cur.length)) ++
      (p.drop (253 - cur.length) ++ separated rules) := by
    rw [append_assoc, ← append_assoc (p.take _), take_append_drop]
  rw [hsplit] at hps
  obtain ⟨qs, rfl, hqs⟩ := hps.eq_cons hfull (append_ne_nil_of_left_ne_nil hrest _)
  have hmore := length_frames attr hqs
  rw [length_append, length_drop] at hmore
  have hdone : (done ++ frame attr (cur ++ p.take (253 - cur.length))).length = done.length + 255 := by
    rw [length_append, length_frame, hfull]
  have htotal : (cur.length + p.length + (separated rules).length) % 253 =
      (([] : List UInt8).length + (p.drop (253 - cur.length)).length +
        (separated rules).length) % 253 := by
    rw [length_nil, length_drop]
    omega
  rw [Fills, filterRuleLoop_overflow hcur hlong, length_frames_cons, framesTo_cons hqs, ← append_assoc]
  split
  · rw [if_pos (by omega)]
  rw [unfinished_mod _ _ htotal, @ih [] _ _ _ _ _ ⟨Nat.zero_le _, hqs, fun h => absurd h hrest, ?_⟩,
    decide_eq_false hrest, decide_eq_false hp, Bool.false_and, Bool.false_and]
  rw [length_drop, if_neg (by simp)]
  split at hrounds
  · omega
  · next h =>
    have : cur.length ≠ 253 := fun hc => h ⟨hc, hp⟩
    omega

theorem fills_fits (h : Filling room (rounds + 1) cur done p x rules ps) (hp : p ≠ [])
    (hfits : cur.length + p.length ≤ 253) : Fills attr room (rounds + 1) cur done p x rules ps := by
  have hrounds := h.rounds_le
  have hmore := h.length_le attr
  have hpos : 0 < p.length := length_pos_iff.mpr hp
  have hcur : (cur ++ p).length = cur.length + p.length := length_append
  have hzero : UInt8.ofNat (2 + (cur ++ p).length) ≠ 0 := length_ne_zero (by omega)
  rw [Fills, filterRuleLoop_fits hp hfits]
  split
  · rw [if_pos (by omega)]
  rw [@ih (cur ++ p) done [] _ rules ps ⟨by omega, by rw [nil_append, append_assoc]; exact h.pieces,
      fun _ => ⟨by simp [hp], by omega, .inl rfl⟩, ?_⟩,
    decide_eq_false hzero, decide_eq_false hp, Bool.and_false, Bool.false_and, length_nil, Nat.add_zero,
    hcur]
  rw [length_nil, if_neg (by simp)]
  omega

omit ih

theorem filterRuleLoop_eq (h : Filling room rounds cur done p x rules ps) :
    Fills attr room rounds cur done p x rules ps := by
  induction rounds generalizing p cur done rules ps x with
  | zero =>
    have hrounds := h.rounds_le
    omega
  | succ rounds ih =>
    by_cases hp : p = []
    · subst hp
      cases rules with
      | nil => exact fills_end h
      | cons rule rules =>
        rcases h.cur_le.lt_or_eq with hlt | hfull
        · exact fills_zero ih h hlt
        · exact fills_next ih h hfull
    · rcases Nat.lt_or_ge 253 (cur.length + p.length) with hlong | hfits
      · exact fills_overflow ih h hp hlong
      · exact fills_fits ih h hp hfits

end Loop

theorem encodeNasFilterRule_eq (hrule : rule ≠ []) (hps : Pieces 253 (rule ++ separated rules) ps) :
    encodeNasFilterRule (rule :: rules) room =
      if room < (frames attrNasFilterRuleNum ps).length then .error .noRoom
      else .ok (framesTo attrNasFilterRuleNum (overfull (rule :: rules)) ps) := by
  have hmore := length_frames attrNasFilterRuleNum hps
  rw [encodeNasFilterRule]
  rcases Nat.lt_or_ge room 2 with hroom | hroom
  · have hwrite : write room [attrNasFilterRuleNum, 0] = .error .noRoom := if_neg (by simp; omega)
    rw [hwrite, if_pos (by omega)]
    rfl
  rw [write_of_le hroom, encodeOk_bind]
  refine (@filterRuleLoop_eq ps rules _ _ _ [] [] rule _ ⟨Nat.zero_le _, hps, fun h => absurd h hrule, ?_⟩).trans ?_
  · rw [if_neg (by simp)]
    omega
  · rw [length_nil, Nat.zero_add, Nat.zero_add, nil_append, decide_eq_false hrule, Bool.false_and,
      overfull_cons, length_append]

theorem overfull_eq_false (h : ∀ r ∈ rules, r ≠ []) : overfull rules = false := by
  cases rules with
  | nil => rfl
  | cons rule rules =>
    have hlast : rules.getLast? ≠ some [] := fun hlast =>
      h [] (mem_cons_of_mem _ (mem_of_getLast? hlast)) rfl
    rw [overfull, decide_eq_false hlast, Bool.false_and]

end Encode

section Decode

variable {ps rules : List (List UInt8)} {rule : List UInt8}

/-- The attributes are found up to one that is something else. -/
theorem filterRunLoop_eq {rest : List UInt8} (hps : ∀ p ∈ ps, p ≠ [] ∧ p.length ≤ 253)
    (hrest : rest = [] ∨ rest.length = 2 ∨ (2 < rest.length ∧ byte rest 0 ≠ attrNasFilterRuleNum))
    (rounds : ℕ) (a held : List UInt8) (hrounds : ps.length ≤ rounds) :
    filterRunLoop (a ++ (frames attrNasFilterRuleNum ps ++ rest)) rounds a.length held =
      some (a.length + (frames attrNasFilterRuleNum ps).length, held ++ ps.flatten) := by
  induction ps generalizing rounds a held with
  | nil =>
    rw [frames_nil, nil_append, length_nil, Nat.add_zero, flatten_nil, append_nil]
    rcases rounds with _ | rounds
    · rfl
    rw [filterRunLoop, drop_left]
    rcases hrest with h | h | ⟨h, hbyte⟩
    · rw [if_pos (.inl h)]
    · rw [if_pos (.inr h)]
    · have hne : rest ≠ [] := by
        rintro rfl
        exact absurd h (by decide)
      rw [if_neg (not_or.mpr ⟨hne, by omega⟩), if_neg (by omega), if_pos hbyte]
  | cons p ps ih =>
    obtain ⟨rounds, rfl⟩ : ∃ k, rounds = k + 1 := ⟨rounds - 1, by rw [length_cons] at hrounds; omega⟩
    obtain ⟨hne, hle⟩ := hps p mem_cons_self
    have hpos : 0 < p.length := length_pos_iff.mpr hne
    have hptr : (a ++ (frames attrNasFilterRuleNum (p :: ps) ++ rest)).drop a.length =
        attrNasFilterRuleNum :: UInt8.ofNat (2 + p.length) ::
          (p ++ (frames attrNasFilterRuleNum ps ++ rest)) := by
      rw [drop_left, frames_cons, append_assoc]
      rfl
    have hlen := toNat_length hle
    have hwhole : a ++ (frames attrNasFilterRuleNum (p :: ps) ++ rest) =
        (a ++ frame attrNasFilterRuleNum p) ++ (frames attrNasFilterRuleNum ps ++ rest) := by
      rw [frames_cons, append_assoc, append_assoc]
    have hnext : a.length + (2 + p.length) = (a ++ frame attrNasFilterRuleNum p).length := by
      rw [length_append, length_frame]
    have hih := ih (fun q hq => hps q (mem_cons_of_mem _ hq)) rounds
      (a ++ frame attrNasFilterRuleNum p) (held ++ p) (by rw [length_cons] at hrounds; omega)
    have hbyte : (byte (attrNasFilterRuleNum :: UInt8.ofNat (2 + p.length) ::
        (p ++ (frames attrNasFilterRuleNum ps ++ rest))) 1).toNat = 2 + p.length := hlen
    have hvalue : slice (attrNasFilterRuleNum :: UInt8.ofNat (2 + p.length) ::
        (p ++ (frames attrNasFilterRuleNum ps ++ rest))) 2 p.length = p := take_left
    rw [filterRunLoop, hptr]
    simp only [hbyte, Nat.add_sub_cancel_left, hvalue]
    rw [if_neg (by simp [hne]), if_neg (by simp), if_neg (by simp [byte]), if_neg (by omega),
      if_neg (by simp; omega), hnext, hwhole, hih]
    simp [Nat.add_assoc]

/-- The strings between the zero bytes, without the empty ones. -/
def betweenZeros (l : List UInt8) : List (List UInt8) := (l.splitOn 0).filter (· ≠ [])

theorem betweenZeros_append (l m : List UInt8) :
    betweenZeros (l ++ 0 :: m) = betweenZeros l ++ betweenZeros m := by
  rw [betweenZeros, splitOn_append_cons_self, filter_append]
  rfl

theorem betweenZeros_of_not_mem (h : 0 ∉ rule) :
    betweenZeros rule = if rule = [] then [] else [rule] := by
  rw [betweenZeros, splitOn_eq_singleton h]
  by_cases hrule : rule = [] <;> simp [hrule]

theorem rulesLoop_eq (rounds : ℕ) (l : List UInt8) (hrounds : l.length ≤ rounds) :
    rulesLoop rounds l = betweenZeros l := by
  induction rounds generalizing l with
  | zero =>
    rw [length_eq_zero_iff.mp (Nat.le_zero.mp hrounds)]
    rfl
  | succ rounds ih =>
    rw [rulesLoop]
    split
    · next hnil => rw [hnil]; rfl
    have hzero : 0 ∉ l.takeWhile (· ≠ 0) := fun h => by simpa using all_eq_true.mp all_takeWhile 0 h
    have hsplit := takeWhile_append_dropWhile (p := (· ≠ 0)) (l := l)
    dsimp only
    rw [ih _ (by rw [length_drop]; omega)]
    generalize l.takeWhile (· ≠ 0) = rule at *
    cases hrest : l.dropWhile (· ≠ 0) with
    | nil =>
      rw [hrest, append_nil] at hsplit
      subst hsplit
      rw [drop_eq_nil_of_le (Nat.le_succ _), betweenZeros_of_not_mem hzero]
      rfl
    | cons z rest =>
      have hz := head?_dropWhile_not (· ≠ 0) l
      rw [hrest] at hz
      obtain rfl : z = 0 := by simpa using hz
      rw [hrest] at hsplit
      subst hsplit
      rw [betweenZeros_append, betweenZeros_of_not_mem hzero, drop_length_add_append]
      split <;> rfl

theorem betweenZeros_separated (hrules : ∀ r ∈ rule :: rules, r ≠ [] ∧ 0 ∉ r) :
    betweenZeros (rule ++ separated rules) = rule :: rules := by
  induction rules generalizing rule with
  | nil =>
    obtain ⟨hne, hzero⟩ := hrules rule mem_cons_self
    rw [separated_nil, append_nil, betweenZeros_of_not_mem hzero, if_neg hne]
  | cons next rules ih =>
    obtain ⟨hne, hzero⟩ := hrules rule mem_cons_self
    rw [separated_cons, betweenZeros_append, betweenZeros_of_not_mem hzero, if_neg hne,
      ih fun r hr => hrules r (mem_cons_of_mem _ hr)]
    rfl

/-- The bytes of the rules are those that are not zero. -/
theorem flatten_betweenZeros (l : List UInt8) : (betweenZeros l).flatten = l.filter (· ≠ 0) := by
  have hsplit : (l.splitOn 0).flatten = l.filter (· ≠ 0) := by
    induction l with
    | nil => rfl
    | cons x l ih =>
      rw [splitOn_cons_eq_if_modifyHead, filter_cons, ← ih]
      obtain ⟨first, rest, heq⟩ := exists_cons_of_ne_nil (splitOn_ne_nil 0 l)
      by_cases hx : x = 0 <;> simp [hx, heq]
  rw [← hsplit, betweenZeros]
  exact flatten_filter_ne_nil

theorem betweenZeros_append_iff {l m : List UInt8} :
    betweenZeros (l ++ m) = betweenZeros l ↔ ∀ b ∈ m, b = 0 := by
  constructor
  · intro h
    have hbytes := congrArg flatten h
    rw [flatten_betweenZeros, flatten_betweenZeros, filter_append, append_right_eq_self,
      filter_eq_nil_iff] at hbytes
    simpa using hbytes
  intro h
  induction m generalizing l with
  | nil => rw [append_nil]
  | cons b m ih =>
    obtain ⟨rfl, hm⟩ := forall_mem_cons.mp h
    rw [betweenZeros_append, ← nil_append m, ih hm]
    exact append_nil _

variable {Da V : Type}

/-- What is decoded is all of the attributes, or the first one if they are short. -/
theorem decodeNasFilterRule_frames {rest : List UInt8} (hne : ps ≠ [])
    (hps : ∀ p ∈ ps, p ≠ [] ∧ p.length ≤ 253)
    (hrest : rest = [] ∨ rest.length = 2 ∨ (2 < rest.length ∧ byte rest 0 ≠ attrNasFilterRuleNum))
    (da : Da) (s : Lists Da V) :
    decodeNasFilterRule da (frames attrNasFilterRuleNum ps ++ rest) s =
      (some (frames attrNasFilterRuleNum ps).length,
        { s with out := s.out ++ (betweenZeros (if 253 < ps.flatten.length then ps.flatten
            else ps.headD [])).map fun rule => .leaf da (.string rule) }) := by
  have hcount : ps.length ≤ (frames attrNasFilterRuleNum ps ++ rest).length := by
    rw [length_append]
    refine Nat.le_add_right_of_le ?_
    clear hne hps
    induction ps with
    | nil => exact Nat.zero_le _
    | cons p ps ih =>
      rw [frames_cons, length_append, length_frame, length_cons]
      omega
  have hrun := filterRunLoop_eq hps hrest _ [] [] hcount
  rw [nil_append, length_nil, Nat.zero_add, nil_append] at hrun
  have hfirst : slice (frames attrNasFilterRuleNum ps ++ rest) 2
      ((byte (frames attrNasFilterRuleNum ps ++ rest) 1).toNat - 2) = ps.headD [] := by
    obtain ⟨p, ps, rfl⟩ := exists_cons_of_ne_nil hne
    rw [frames_cons, append_assoc]
    change slice (_ :: _ :: (p ++ _)) 2 ((UInt8.ofNat (2 + p.length)).toNat - 2) = p
    rw [toNat_length (hps p mem_cons_self).2, Nat.add_sub_cancel_left]
    exact take_left
  unfold decodeNasFilterRule
  simp only [hrun, hfirst, rulesLoop_eq _ _ le_rfl]
  rfl

end Decode

/-- NAS-Filter-Rules are written to attributes that fill the output, and they are the same after
they have been decoded. -/
theorem nasFilterRule_roundTrips {Da V : Type} {rules : List (List UInt8)} (hne : rules ≠ [])
    (hrules : ∀ r ∈ rules, r ≠ [] ∧ 0 ∉ r) :
    ∃ values : List (List UInt8), (∀ v ∈ values, 3 ≤ 2 + v.length ∧ 2 + v.length ≤ 255) ∧
      (∀ room, (frames attrNasFilterRuleNum values).length ≤ room →
        encodeNasFilterRule rules room = .ok (frames attrNasFilterRuleNum values)) ∧
      ∀ (da : Da) (s : Lists Da V), decodeNasFilterRule da (frames attrNasFilterRuleNum values) s =
        (some (frames attrNasFilterRuleNum values).length,
          { s with out := s.out ++ rules.map fun rule => .leaf da (.string rule) }) := by
  obtain ⟨rule, rules, rfl⟩ := exists_cons_of_ne_nil hne
  obtain ⟨ps, hps⟩ : ∃ ps, Pieces 253 (rule ++ separated rules) ps :=
    ⟨_, pieces_cut (by decide) (append_ne_nil_of_left_ne_nil (hrules rule mem_cons_self).1 _)⟩
  refine ⟨ps, fun v hv => ?_, fun room hroom => ?_, fun da s => ?_⟩
  · obtain ⟨hv, hle⟩ := hps.forall_mem (by decide) v hv
    have hpos : 0 < v.length := length_pos_iff.mpr hv
    omega
  · rw [encodeNasFilterRule_eq (hrules rule mem_cons_self).1 hps, if_neg (Nat.not_lt.mpr hroom),
      overfull_eq_false fun r hr => (hrules r hr).1, framesTo_false]
  · have hps' : ps ≠ [] := fun hnil => hps.ne_nil (by rw [← hps.flatten, hnil]; rfl)
    have hall : (if 253 < ps.flatten.length then ps.flatten else ps.headD []) =
        rule ++ separated rules := by
      rw [hps.flatten]
      split
      · rfl
      · next hshort => rw [hps.eq_singleton (Nat.not_lt.mp hshort)]; rfl
    have h := decodeNasFilterRule_frames hps' (hps.forall_mem (by decide)) (.inl rfl) da s
    rwa [append_nil, hall, betweenZeros_separated hrules] at h

theorem nasFilterRule_roundTrips_two :
    ∃ values : List (List UInt8), (∀ v ∈ values, 3 ≤ 2 + v.length ∧ 2 + v.length ≤ 255) ∧
      (∀ room, (frames attrNasFilterRuleNum values).length ≤ room →
        encodeNasFilterRule [replicate 253 97, [98]] room =
          .ok (frames attrNasFilterRuleNum values)) ∧
      ∀ (da : SampleDa) (s : Lists SampleDa Empty),
        decodeNasFilterRule da (frames attrNasFilterRuleNum values) s =
          (some (frames attrNasFilterRuleNum values).length,
            { s with out := s.out ++
              [replicate 253 97, [98]].map fun rule => .leaf da (.string rule) }) :=
  nasFilterRule_roundTrips (by decide) (by decide)

/-- All attributes are consumed, but if there is room for their bytes in one, only the first is
decoded: this is right if the others hold nothing but zero bytes. -/
theorem decodeNasFilterRule_iff {Da V : Type} {p rest : List UInt8} {ps : List (List UInt8)}
    (hps : ∀ q ∈ p :: ps, 3 ≤ 2 + q.length ∧ 2 + q.length ≤ 255)
    (hrest : rest = [] ∨ rest.length = 2 ∨ (2 < rest.length ∧ byte rest 0 ≠ attrNasFilterRuleNum))
    (da : Da) (s : Lists Da V) :
    decodeNasFilterRule da (frames attrNasFilterRuleNum (p :: ps) ++ rest) s =
      (some (frames attrNasFilterRuleNum (p :: ps)).length,
        { s with out := s.out ++
            (betweenZeros (p :: ps).flatten).map fun rule => .leaf da (.string rule) }) ↔
    253 < (p :: ps).flatten.length ∨ ∀ b ∈ ps.flatten, b = 0 := by
  have hmem : ∀ q ∈ p :: ps, q ≠ [] ∧ q.length ≤ 253 := fun q hq => by
    have := hps q hq
    exact ⟨length_pos_iff.mp (by omega), by omega⟩
  rw [decodeNasFilterRule_frames (cons_ne_nil _ _) hmem hrest]
  by_cases hlong : 253 < (p :: ps).flatten.length
  · simp only [hlong, if_true, true_or]
  have hinj : Function.Injective fun rule => (Pair.leaf da (.string rule) : Pair Da V) :=
    fun _ _ h => by simpa using h
  rw [if_neg hlong, headD_cons, or_iff_right hlong, flatten_cons,
    ← betweenZeros_append_iff (l := p), Prod.mk.injEq, Lists.mk.injEq, append_cancel_left_eq,
    map_inj_right hinj]
  simp [eq_comm]

theorem decodeNasFilterRule_iff_zero :
    decodeNasFilterRule () (frames attrNasFilterRuleNum [[97], [0]] ++ [])
      (⟨[], []⟩ : Lists Unit Empty) = (some 6, ⟨[.leaf () (.string [97])], []⟩) :=
  (decodeNasFilterRule_iff (by decide) (.inl rfl) () _).mpr (.inr (by simp))

/-- Of two short attributes the second is lost. -/
theorem decodeNasFilterRule_loses :
    decodeNasFilterRule () (frames attrNasFilterRuleNum [[97], [98]])
      (⟨[], []⟩ : Lists Unit Empty) = (some 6, ⟨[.leaf () (.string [97])], []⟩) ∧
    betweenZeros [[97], [98]].flatten = [[97, 98]] :=
  ⟨rfl, rfl⟩

end FreeRadius.Radius
