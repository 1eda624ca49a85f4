import Mathlib.Data.Int.Notation
import Mathlib.Data.List.Basic
import Mathlib.Order.Basic

/-!
# Verified reads from a stream

`fr_bio_mem_read_verify_stream`, over the buffer of `buf.c`.
-/

namespace FreeRadius.Bio

open List

/-- `fr_bio_buf_t`: `data` is what lies between the `read` and the `write` pointer. -/
structure FrBioBuf where
  size : ℕ
  read : ℕ
  data : List UInt8
  fits : read + data.length ≤ size

inductive BioError where
  | verify
  | bufferTooSmall
  | bufferFull
  | next (rcode : ℤ)

/-- `fr_bio_verify_action_t`, with the size that the callback leaves in `*size` -/
inductive VerifyAction where
  | ok (want : ℕ)
  | discard (want : ℕ)
  | wantMore (want : ℕ)
  | errorClose

/-- What the next bio reads into so much room. -/
abbrev Next := (room : ℕ) → Except BioError {chunk : List UInt8 // chunk.length ≤ room}

variable (buf : FrBioBuf) (verify : List UInt8 → VerifyAction) (next : Next)

def writeRoom : ℕ := buf.size - (buf.read + buf.data.length)

def makeRoom : FrBioBuf :=
  if buf.read = 0 ∨ buf.data = [] then buf
  else { buf with read := 0, fits := by have := buf.fits; omega }

def frBioBufRead (size : ℕ) : List UInt8 × FrBioBuf :=
  if buf.data = [] ∨ size = 0 then ([], buf)
  else
    let read := buf.read + min size buf.data.length
    have h : read + (buf.data.drop size).length ≤ buf.size := by
      have := buf.fits
      rw [length_drop]
      omega
    -- an empty buffer is reset, and one that is read past its middle is shifted
    (buf.data.take size,
      if buf.data.drop size = [] ∨ buf.size - read < read then
        ⟨buf.size, 0, buf.data.drop size, by omega⟩
      else ⟨buf.size, read, buf.data.drop size, h⟩)

/-- The loop does not move `packet`: a verify function that discards is asked about the same
bytes for ever. -/
def frBioMemCallVerify : Option VerifyAction :=
  if buf.data = [] then some .errorClose
  else match verify buf.data with
    | .discard _ => none
    | action => some action

/-- The read from the next bio. -/
def fill : Except BioError ℕ × FrBioBuf :=
  let buf := if writeRoom buf = 0 then makeRoom buf else buf
  if writeRoom buf = 0 then (.error .bufferFull, buf)
  else match next (writeRoom buf) with
    | .error rcode => (.error rcode, buf)
    | .ok ⟨chunk, h⟩ =>
      (.ok chunk.length, { buf with
        data := buf.data ++ chunk
        fits := by have := buf.fits; rw [writeRoom] at h; rw [length_append]; omega })

/-- The part of `fr_bio_mem_read_verify_stream` after the first look at the buffer. -/
def readNext : Option (Except BioError (List UInt8) × FrBioBuf) :=
  match fill buf next with
  | (.error rcode, buf) => some (.error rcode, buf)
  | (.ok rcode, buf) =>
    if rcode = 0 then some (.ok [], buf)
    else (frBioMemCallVerify buf verify).map fun
      | .ok want => ((frBioBufRead buf want).map .ok id)
      | .wantMore _ => (.ok [], buf)
      | _ => (.error .verify, buf)

def frBioMemReadVerifyStream (size : ℕ) : Option (Except BioError (List UInt8) × FrBioBuf) :=
  if buf.data = [] then readNext buf verify next
  else (frBioMemCallVerify buf verify).bind fun
    | .ok want =>
      if size < want then some (.error .bufferTooSmall, buf)
      else some ((frBioBufRead buf want).map .ok id)
    | .wantMore _ => readNext buf verify next
    | _ => some (.error .verify, buf)

/-- A verify function that never discards. -/
structure FrBioVerify where
  verify : List UInt8 → VerifyAction
  keeps : ∀ data want, verify data ≠ .discard want

variable {buf} (v : FrBioVerify) {size : ℕ}

/-- The next bio is asked for more. -/
def Waits (buf : FrBioBuf) : Prop :=
  buf.data = [] ∨ ∃ more, frBioMemCallVerify buf v.verify = some (.wantMore more)

/-- What the next bio delivers completes a packet, which the buffer then starts with. -/
def Completes (buf filled : FrBioBuf) (want : ℕ) : Prop :=
  Waits v buf ∧ ∃ rcode, fill buf next = (.ok rcode, filled) ∧ rcode ≠ 0 ∧
    frBioMemCallVerify filled v.verify = some (.ok want)

/-- The call returns no more than it was asked for, and a later call finds a packet that was
too long for this one. -/
def ReadsWithin (buf : FrBioBuf) (size : ℕ) : Prop :=
  ∃ result left, frBioMemReadVerifyStream buf v.verify next size = some (result, left) ∧
    (∀ bytes, result = .ok bytes → bytes.length ≤ size) ∧
    ∀ filled want, (filled = buf ∧ frBioMemCallVerify buf v.verify = some (.ok want)) ∨
        Completes next v buf filled want → size < want →
      result = .error .bufferTooSmall ∧
      ∀ (next' : Next) (size' : ℕ), want ≤ size' → ∃ left', frBioMemReadVerifyStream left
        v.verify next' size' = some (.ok (filled.data.take want), left')

theorem frBioBufRead_fst : (frBioBufRead buf size).1 = buf.data.take size := by
  unfold frBioBufRead
  split_ifs with h
  · obtain h | h := h <;> simp [h]
  · rfl

theorem frBioMemCallVerify_returns : ∃ action, frBioMemCallVerify buf v.verify = some action := by
  unfold frBioMemCallVerify
  split
  · exact ⟨_, rfl⟩
  · split
    case h_1 want hv => exact absurd hv (v.keeps _ _)
    case h_2 => exact ⟨_, rfl⟩

/-- The call with a buffer that waits, whatever the size of the caller's. -/
theorem read_of_waits (hw : Waits v buf) :
    frBioMemReadVerifyStream buf v.verify next size = readNext buf v.verify next := by
  by_cases he : buf.data = []
  · rw [frBioMemReadVerifyStream, if_pos he]
  · obtain ⟨more, hc⟩ := hw.resolve_left he
    rw [frBioMemReadVerifyStream, if_neg he, hc, Option.bind_some]

theorem not_waits_of_ok {want : ℕ} (hc : frBioMemCallVerify buf v.verify = some (.ok want)) :
    ¬ Waits v buf := by
  rintro (he | ⟨more, hm⟩)
  · rw [frBioMemCallVerify, if_pos he] at hc
    cases hc
  · cases hc.symm.trans hm

/-- The call with a buffer that starts with a packet. -/
theorem read_of_ok {want : ℕ} (hc : frBioMemCallVerify buf v.verify = some (.ok want))
    (hle : want ≤ size) : ∃ left, frBioMemReadVerifyStream buf v.verify next size =
      some (.ok (buf.data.take want), left) := by
  have he : buf.data ≠ [] := fun he => not_waits_of_ok v hc (.inl he)
  refine ⟨(frBioBufRead buf want).2, ?_⟩
  rw [frBioMemReadVerifyStream, if_neg he, hc, ← frBioBufRead_fst]
  exact if_neg (by omega)

theorem readNext_cases (hw : Waits v buf) :
    ∃ result left, readNext buf v.verify next = some (result, left) ∧
      ∀ bytes, result = .ok bytes → bytes = [] ∨
        ∃ filled want, Completes next v buf filled want ∧ bytes = filled.data.take want := by
  unfold readNext
  split
  next rcode left hf => exact ⟨_, _, rfl, nofun⟩
  next rcode filled hf =>
  split
  next => exact ⟨_, _, rfl, fun bytes h => .inl (Except.ok.inj h).symm⟩
  next h0 =>
  obtain ⟨action, hc⟩ := @frBioMemCallVerify_returns filled v
  rw [hc, Option.map_some]
  cases action with
  | ok want =>
    exact ⟨_, _, rfl, fun bytes h => .inr ⟨filled, want, ⟨hw, rcode, hf, h0, hc⟩,
      (frBioBufRead_fst.symm.trans (Except.ok.inj h)).symm⟩⟩
  | wantMore want => exact ⟨_, _, rfl, fun bytes h => .inl (Except.ok.inj h).symm⟩
  | _ => exact ⟨_, _, rfl, nofun⟩

/-- Packets of two bytes. -/
def pairs : FrBioVerify where
  verify data := if data.length < 2 then .wantMore 2 else .ok 2
  keeps data want h := by split at h <;> cases h

end FreeRadius.Bio
