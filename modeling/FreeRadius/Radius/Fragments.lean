import FreeRadius.Library.Pieces
import FreeRadius.Radius.Leaf

/-!
# Attributes in fragments

`attr_fragment` cuts the data of a long attribute into pieces and copies the header in front of
each of them. What it leaves in the buffer is a header for every piece, with its length and a
flag that more pieces follow.
-/

namespace FreeRadius.Radius

open Library List

/-- A header of a piece: the first header with other length fields and another flag. -/
def stamp (hdrLen flagOffset vsaOffset : ℕ) (header : List UInt8) (fragLen : ℕ) (last : Bool) :
    List UInt8 :=
  let header := header.set 1 (UInt8.ofNat (hdrLen + fragLen))
  let header := if vsaOffset = 0 then header else header.set vsaOffset (UInt8.ofNat (3 + fragLen))
  if flagOffset = 0 then header else header.set flagOffset (if last then 0 else 0x80)

/-- Pieces with a header in front of each of them. -/
def fragments (header : ℕ → Bool → List UInt8) : List (List UInt8) → List UInt8
  | [] => []
  | [p] => header p.length true ++ p
  | p :: q :: ps => header p.length false ++ p ++ fragments header (q :: ps)

section Stamp

variable {hdrLen flagOffset vsaOffset fragLen : ℕ} {last : Bool} {header : List UInt8}

@[simp] theorem length_stamp :
    (stamp hdrLen flagOffset vsaOffset header fragLen last).length = header.length := by
  unfold stamp
  simp only
  split_ifs <;> simp

theorem stamp_stamp (fragLen' : ℕ) (last' : Bool) :
    stamp hdrLen flagOffset vsaOffset (stamp hdrLen flagOffset vsaOffset header fragLen' last') fragLen
      last = stamp hdrLen flagOffset vsaOffset header fragLen last := by
  refine ext_getElem? fun i => ?_
  unfold stamp
  simp only
  split_ifs <;> simp only [getElem?_set, length_set] <;> split_ifs <;> rfl

/-- The markers write to the header behind the pieces which are `done`. -/
theorem fragmentHeader_eq {room : ℕ} (done rest : List UInt8) (hlen : header.length = hdrLen)
    (h1 : 1 < hdrLen) (hflag : flagOffset < hdrLen) (hvsa : vsaOffset < hdrLen)
    (hroom : done.length + hdrLen ≤ room) :
    fragmentHeader hdrLen flagOffset vsaOffset fragLen last room done.length
        (done ++ (header ++ rest)) =
      done ++ (stamp hdrLen flagOffset vsaOffset header fragLen last ++ rest) := by
  have hset : ∀ (h : List UInt8) (i : ℕ) (b : UInt8), h.length = hdrLen → i < hdrLen →
      (done ++ (h ++ rest)).set (done.length + i) b = done ++ (h.set i b ++ rest) := by
    intro h i b hh hi
    rw [set_append_right _ _ (by omega), Nat.add_sub_cancel_left, set_append_left _ _ (by omega)]
  have hmarker : ∀ (m i : ℕ) (h : List UInt8) (b : UInt8), h.length = hdrLen → i < hdrLen →
      markerInAt room (done.length + i) (m, done ++ (h ++ rest)) b =
        (done.length + i + 1, done ++ (h.set i b ++ rest)) := by
    intro m i h b hh hi
    rw [markerInAt, if_pos (by omega), markerIn, if_pos (by simp only; omega), hset h i b hh hi]
  have hfirst : markerIn room (advance room done.length 1, done ++ (header ++ rest))
      (UInt8.ofNat (hdrLen + fragLen)) = (done.length + 1 + 1,
        done ++ (header.set 1 (UInt8.ofNat (hdrLen + fragLen)) ++ rest)) := by
    rw [advance, if_pos (by omega), markerIn, if_pos (by simp only; omega), hset header 1 _ hlen h1]
  unfold fragmentHeader stamp
  simp only [hfirst]
  by_cases hv : vsaOffset = 0
  · by_cases hf : flagOffset = 0
    · simp only [if_pos hv, if_pos hf]
    · simp only [if_pos hv, if_neg hf]
      rw [hmarker _ _ _ _ (by rw [length_set, hlen]) hflag]
  by_cases hf : flagOffset = 0
  · simp only [if_neg hv, if_pos hf]
    rw [hmarker _ _ _ _ (by rw [length_set, hlen]) hvsa]
  · simp only [if_neg hv, if_neg hf]
    rw [hmarker _ _ _ _ (by rw [length_set, hlen]) hvsa,
      hmarker _ _ _ _ (by rw [length_set, length_set, hlen]) hflag]

end Stamp

section Loop

variable {hdrLen flagOffset vsaOffset : ℕ} {first : List UInt8} {ps : List (List UInt8)}

theorem length_fragments (hfirst : first.length = hdrLen) :
    (fragments (stamp hdrLen flagOffset vsaOffset first) ps).length =
      hdrLen * ps.length + ps.flatten.length := by
  induction ps with
  | nil => simp [fragments]
  | cons p ps ih =>
    cases ps with
    | nil => simp [fragments, hfirst]
    | cons q ps =>
      have hflat : (p :: q :: ps).flatten.length = p.length + (q :: ps).flatten.length := by
        rw [flatten_cons, length_append]
      have hcount : hdrLen * (p :: q :: ps).length = hdrLen * (q :: ps).length + hdrLen := by
        rw [length_cons, Nat.mul_succ]
      rw [fragments, length_append, length_append, length_stamp, ih, hfirst, hflat, hcount]
      omega

/-- The rounds that are left cut the rest of the data. The first bytes of the buffer, which are
copied, are the first header in all but the fields that are set anyway. -/
theorem fragmentLoop_eq (h1 : 1 < hdrLen) (hflag : flagOffset < hdrLen) (hvsa : vsaOffset < hdrLen)
    (hfirst : first.length = hdrLen) {dataLen numFragments i : ℕ} (room : ℕ) (done : List UInt8)
    {header rest : List UInt8} (hps : Pieces (255 - hdrLen) rest ps)
    (hrounds : i + ps.length = numFragments) (hdata : rest.length + (255 - hdrLen) * i = dataLen)
    (hheader : header.length = hdrLen) (hcopy : done = [] ∨ (hdrLen ≤ done.length ∧ ∀ fragLen last,
      stamp hdrLen flagOffset vsaOffset (done.take hdrLen) fragLen last =
        stamp hdrLen flagOffset vsaOffset first fragLen last))
    (hown : ∀ fragLen last, stamp hdrLen flagOffset vsaOffset header fragLen last =
      stamp hdrLen flagOffset vsaOffset first fragLen last)
    (hroom : done.length + (fragments (stamp hdrLen flagOffset vsaOffset first) ps).length ≤ room) :
    fragmentLoop hdrLen flagOffset vsaOffset dataLen numFragments room ps.length i done.length
        (done.length + hdrLen) (done ++ (header ++ rest)) =
      .ok (done ++ fragments (stamp hdrLen flagOffset vsaOffset first) ps) := by
  induction hps generalizing i done header with
  | @last l hne hle =>
    rw [length_fragments hfirst] at hroom
    simp only [length_singleton, Nat.mul_one, flatten_singleton] at hroom hrounds
    have hlast : i + 1 = numFragments := hrounds
    have hfrag : dataLen - (255 - hdrLen) * (numFragments - 1) = l.length := by
      rw [← hlast, Nat.add_sub_cancel, ← hdata, Nat.add_sub_cancel]
    rw [length_singleton, fragmentLoop]
    simp only [hlast, decide_true, if_true, hfrag]
    rw [fragmentHeader_eq done l hheader h1 hflag hvsa (by omega), hown, advance, if_pos (by omega),
      take_of_length_le, fragments]
    simp only [length_append, length_stamp, hfirst]
    omega
  | @full a l ps ha h ih =>
    obtain ⟨p, qs, rfl⟩ := exists_cons_of_ne_nil (fun hnil : ps = [] => h.ne_nil (by
      rw [← h.flatten, hnil, flatten_nil]))
    have hlast : i + 1 ≠ numFragments := by
      rw [length_cons, length_cons] at hrounds
      omega
    have hfragments : fragments (stamp hdrLen flagOffset vsaOffset first) (a :: p :: qs) =
        stamp hdrLen flagOffset vsaOffset header (255 - hdrLen) false ++ a ++
          fragments (stamp hdrLen flagOffset vsaOffset first) (p :: qs) := by
      rw [fragments, ha, hown]
    have hmore : hdrLen + l.length ≤
        (fragments (stamp hdrLen flagOffset vsaOffset first) (p :: qs)).length := by
      rw [length_fragments hfirst, h.flatten, length_cons, Nat.mul_succ]
      omega
    rw [hfragments] at hroom ⊢
    obtain ⟨stamped, hstamped⟩ : ∃ stamped,
      stamp hdrLen flagOffset vsaOffset header (255 - hdrLen) false = stamped := ⟨_, rfl⟩
    have hslen : stamped.length = hdrLen := by rw [← hstamped, length_stamp, hheader]
    rw [hstamped] at hroom ⊢
    have hnext : (done ++ (stamped ++ a)).length = done.length + hdrLen + (255 - hdrLen) := by
      rw [length_append, length_append, hslen, ha, Nat.add_assoc]
    simp only [length_append, hslen, ha] at hroom
    have hleft : dataLen - (i + 1) * (255 - hdrLen) = l.length := by
      rw [← hdata, length_append, ha, Nat.add_mul, Nat.one_mul, Nat.mul_comm i]
      omega
    have hbuf : done ++ (stamped ++ (a ++ l)) = done ++ (stamped ++ a) ++ l := by
      simp only [append_assoc]
    -- what is copied, which may be the header that has just been set
    have hcopied : hdrLen ≤ (done ++ (stamped ++ a)).length ∧ ∀ fragLen last,
        stamp hdrLen flagOffset vsaOffset ((done ++ (stamped ++ a)).take hdrLen) fragLen last =
          stamp hdrLen flagOffset vsaOffset first fragLen last := by
      refine ⟨by omega, fun fragLen last => ?_⟩
      rcases hcopy with rfl | ⟨hle, hcopy⟩
      · rw [nil_append, take_left' hslen, ← hstamped, stamp_stamp, hown]
      · rw [take_append_of_le_length hle, hcopy]
    have hcopylen : ((done ++ (stamped ++ a)).take hdrLen).length = hdrLen :=
      length_take_of_le hcopied.1
    have hadvance : advance room (done.length + hdrLen) (255 - hdrLen) =
        (done ++ (stamped ++ a)).length := by
      rw [advance, if_pos (by omega), hnext]
    rw [length_cons, fragmentLoop]
    simp only [hlast, decide_false, if_false, hadvance]
    rw [fragmentHeader_eq done (a ++ l) hheader h1 hflag hvsa (by omega), hstamped, hbuf,
      if_pos (by omega), if_neg (by omega), take_left, drop_left,
      take_append_of_le_length hcopied.1, append_assoc (done ++ _)]
    rw [ih _ (by rw [length_cons] at hrounds; omega) ?_ hcopylen (.inr hcopied) hcopied.2 ?_]
    · simp only [append_assoc]
    · rw [← hdata, length_append, ha, Nat.mul_add, Nat.mul_one]
      omega
    · omega

/-- `attr_fragment` of more data than one attribute can hold. -/
theorem attrFragment_eq (h1 : 1 < hdrLen) (hmax : hdrLen < 255) (hflag : flagOffset < hdrLen)
    (hvsa : vsaOffset < hdrLen) (hfirst : first.length = hdrLen) {room : ℕ} {data : List UInt8}
    (hps : Pieces (255 - hdrLen) data ps) (hlong : 255 - hdrLen < data.length)
    (hroom : (fragments (stamp hdrLen flagOffset vsaOffset first) ps).length ≤ room) :
    attrFragment (first ++ data) data.length hdrLen flagOffset vsaOffset room =
      .ok (some (fragments (stamp hdrLen flagOffset vsaOffset first) ps)) := by
  have hw : 0 < 255 - hdrLen := by omega
  have hnum : roundUp data.length (255 - hdrLen) / (255 - hdrLen) = ps.length := by
    rw [roundUp, Nat.mul_div_cancel _ hw, hps.length_eq hw]
  have hmany : ps.length ≠ 1 := by
    intro hone
    obtain ⟨p, rfl⟩ := List.length_eq_one_iff.mp hone
    have hle := (hps.forall_mem hw p mem_cons_self).2
    have hflat := hps.flatten
    rw [flatten_singleton] at hflat
    rw [hflat] at hle
    omega
  have hloop := fragmentLoop_eq h1 hflag hvsa hfirst room [] hps (Nat.zero_add _) rfl hfirst
    (.inl rfl) (fun _ _ => rfl) (by rwa [length_nil, Nat.zero_add])
  rw [nil_append, nil_append, length_nil, Nat.zero_add, Nat.mul_zero, Nat.add_zero] at hloop
  unfold attrFragment
  rw [if_neg (by omega)]
  simp only [hnum]
  rw [if_neg hmany, hloop]
  rfl

end Loop

end FreeRadius.Radius
