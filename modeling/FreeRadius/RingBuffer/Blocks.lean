import FreeRadius.RingBuffer.Model
import FreeRadius.Library.Tiling

/-!
# The blocks in a ring buffer

The live blocks tile the used part of the buffer in the order in which they
were allocated, in one piece or in two. Every call keeps that, as long as its
size does not make the offsets overflow.
-/

namespace FreeRadius.RingBuffer

open Library List

variable {rb rb' : FrRingBuffer} {live : List Span} {size : ℕ}

/-- How the live blocks lie in the buffer. -/
inductive Layout (rb : FrRingBuffer) (live : List Span) : Prop
  | linear (hwrite : rb.writeOffset = rb.dataEnd) (hend : rb.dataEnd ≤ rb.size)
    (hstart : rb.dataStart = 0 ∨ rb.dataStart < rb.dataEnd)
    (htiles : Tiles rb.dataStart rb.dataEnd live)
  | wrapped (old new : List Span) (hlive : live = old ++ new)
    (hwrite : rb.writeOffset < rb.dataStart) (hstart : rb.dataStart < rb.dataEnd)
    (hend : rb.dataEnd ≤ rb.size) (hold : Tiles rb.dataStart rb.dataEnd old)
    (hnew : Tiles 0 rb.writeOffset new)

/-- The buffer is open and holds the blocks, the oldest one first. -/
structure Holds (rb : FrRingBuffer) (live : List Span) : Prop where
  notClosed : rb.closed = false
  size_le : rb.size ≤ 2 ^ 30
  within : ∀ b ∈ live, b.offset + b.size ≤ rb.size
  layout : Layout rb live

variable (rb) in
/-- There is room for so many bytes at the write offset. -/
def Ready (size : ℕ) : Prop :=
  if rb.writeOffset < rb.dataStart then rb.writeOffset + size < rb.dataStart
  else rb.writeOffset + size ≤ rb.size

variable (rb) in
/-- When `used` bytes have been allocated at the write offset, there is room for
`size` bytes behind them or at the start of the buffer. -/
def Room (used size : ℕ) : Prop :=
  Ready rb (used + size) ∨ rb.dataStart ≤ rb.writeOffset ∧ size < rb.dataStart

instance : Decidable (Ready rb size) :=
  inferInstanceAs (Decidable (if rb.writeOffset < rb.dataStart then _ else _))

instance {used : ℕ} : Decidable (Room rb used size) := inferInstanceAs (Decidable (_ ∨ _))

theorem Ready.mono {n : ℕ} (h : Ready rb size) (hn : n ≤ size) : Ready rb n := by
  unfold Ready at *
  split at h <;> split <;> omega

/-- The start of the data moves on, or to the start of the buffer. -/
theorem Room.mono {n : ℕ} (h : Room rb 0 n) (hsize : rb'.size = rb.size)
    (hwrite : rb'.writeOffset = rb.writeOffset) (hend : rb.dataStart ≤ rb.size)
    (hstart : rb.dataStart ≤ rb'.dataStart ∧ rb'.dataStart ≤ rb.writeOffset ∨
      rb.writeOffset < rb.dataStart ∧ (rb'.dataStart = 0 ∨ rb.dataStart ≤ rb'.dataStart)) :
    Room rb' 0 n := by
  unfold Room Ready at *
  split at h <;> split <;> omega

section Create

theorem roundUp_le {size : ℕ} (h : size ≤ 2 ^ 30) : roundUp size ≤ 2 ^ 30 := by
  have hstep : ∀ n k : ℕ, n < 2 ^ 30 → n ||| n >>> k < 2 ^ 30 := fun n k hn =>
    Nat.or_lt_two_pow hn ((Nat.shiftRight_le n k).trans_lt hn)
  have h₀ : size - 1 < 2 ^ 30 := by omega
  exact hstep _ 16 (hstep _ 8 (hstep _ 4 (hstep _ 2 (hstep _ 1 h₀))))

theorem holds_create (h : frRingBufferCreate size = .ok rb) : Holds rb [] := by
  unfold frRingBufferCreate at h
  dsimp only at h
  split_ifs at h with hlarge
  all_goals
    cases h
    exact ⟨rfl, roundUp_le (by omega), by simp, .linear rfl (Nat.zero_le _) (.inl rfl) rfl⟩

theorem size_le_of_create (h : frRingBufferCreate size = .ok rb) : size ≤ 2 ^ 30 := by
  unfold frRingBufferCreate at h
  dsimp only at h
  split_ifs at h <;> omega

end Create

section Reading

section

variable (h : Holds rb live)

include h

theorem Holds.apart : live.Pairwise fun a b => ¬a.Overlap b := by
  cases h.layout with
  | linear _ _ _ htiles => exact htiles.apart
  | wrapped old new hlive hwrite _ _ hold hnew =>
    rw [hlive, pairwise_append]
    refine ⟨hold.apart, hnew.apart, fun a ha b hb hover => ?_⟩
    exact (hnew.within b hb).not_overlap (hold.within a ha) hwrite.le hover.symm

theorem Holds.start_le : rb.dataStart ≤ rb.dataEnd ∧ rb.dataEnd ≤ rb.size := by
  cases h.layout with
  | linear _ hend hstart _ => omega
  | wrapped _ _ _ _ hstart hend _ _ => omega

theorem Holds.blockSize_eq : blockSize rb = rb.dataEnd - rb.dataStart := if_pos h.start_le.1

theorem Holds.used : frRingBufferUsed rb = total live := by
  have hle := h.start_le
  have hsize := h.size_le
  rw [frRingBufferUsed, h.blockSize_eq]
  cases h.layout with
  | linear hwrite _ _ htiles =>
    have := htiles.total_eq
    rw [if_neg (by omega), u64_of_lt (by omega)]
    omega
  | wrapped old new hlive hwrite _ _ hold hnew =>
    have h₁ := hold.total_eq
    have h₂ := hnew.total_eq
    rw [if_pos hwrite, hlive, total_append, u64_of_lt (by omega)]
    omega

theorem Holds.isOpen : ¬rb.closed = true := by
  rw [h.notClosed]
  exact Bool.false_ne_true

theorem Holds.write_le : rb.writeOffset ≤ rb.size := by
  cases h.layout with
  | linear hwrite hend _ _ => omega
  | wrapped _ _ _ hwrite hstart hend _ _ => omega

theorem Holds.start (hsize : (frRingBufferStart rb).2 ≠ 0) :
    ∃ b rest, live = b :: rest ∧ (b.size = 0 ∨ b.offset = rb.dataStart) := by
  rw [frRingBufferStart, h.blockSize_eq] at hsize
  cases h.layout with
  | linear hwrite _ _ htiles =>
    rw [if_neg (by omega)] at hsize
    cases live with
    | nil => exact absurd (Nat.sub_eq_zero_of_le htiles.ge) hsize
    | cons b rest => exact ⟨b, rest, rfl, htiles.1⟩
  | wrapped old new hlive _ hstart _ hold _ =>
    cases old with
    | nil => exact absurd hold (Nat.ne_of_lt hstart)
    | cons b rest => exact ⟨b, rest ++ new, hlive, hold.1⟩

end

end Reading

variable {offset : ℕ} {s : State}

section Calls

section

variable (h : Holds rb live)

include h

theorem Holds.shrink : Holds (shrinkReserved rb size) live := by
  refine ⟨h.notClosed, h.size_le, h.within, ?_⟩
  cases h.layout with
  | linear hwrite hend hstart htiles => exact .linear hwrite hend hstart htiles
  | wrapped old new hlive hwrite hstart hend hold hnew =>
    exact .wrapped old new hlive hwrite hstart hend hold hnew

theorem Holds.push (hclosed : rb'.closed = rb.closed) (hsize : rb'.size = rb.size)
    (hfits : offset + size ≤ rb.size) (hlayout : Layout rb' (live ++ [⟨offset, size⟩])) :
    Holds rb' (live ++ [⟨offset, size⟩]) := by
  refine ⟨hclosed.trans h.notClosed, hsize.le.trans h.size_le, fun b hb => ?_, hlayout⟩
  rw [hsize]
  rcases mem_append.mp hb with hb | hb
  · exact h.within b hb
  · rw [mem_singleton] at hb
    rw [hb]
    exact hfits

/-- `fr_ring_buffer_alloc` puts a block behind the live ones, or fails. -/
theorem Holds.alloc (hsize : rb.writeOffset + size < 2 ^ 64) :
    (∃ rb' offset, frRingBufferAlloc rb size = (rb', .ok offset) ∧
      Holds rb' (live ++ [⟨offset, size⟩])) ∨
    ∃ rb', frRingBufferAlloc rb size = (rb', .error .noMemory) ∧ Holds rb' live := by
  have hs : Holds (shrinkReserved rb size) live := h.shrink
  have hu : u64 ((shrinkReserved rb size).writeOffset + size) =
    (shrinkReserved rb size).writeOffset + size := u64_of_lt hsize
  unfold frRingBufferAlloc
  rw [if_neg h.isOpen]
  dsimp only
  rw [hu]
  cases hs.layout with
  | linear hwrite hend hstart htiles =>
    rw [if_neg (by omega)]
    split_ifs with hfits hwrap
    · refine .inl ⟨_, _, rfl, hs.push rfl rfl hfits (.linear rfl hfits (by dsimp only; omega) ?_)⟩
      rw [← hwrite] at htiles
      exact htiles.append (tiles_singleton _ size)
    · refine .inl ⟨_, _, rfl, hs.push rfl rfl (by omega) ?_⟩
      exact .wrapped live [⟨0, size⟩] rfl hwrap (by dsimp only; omega) hend htiles
        ⟨.inr rfl, Nat.zero_add size⟩
    · exact .inr ⟨_, rfl, hs⟩
  | wrapped old new hlive hwrite hstart hend hold hnew =>
    rw [if_pos hwrite]
    split_ifs with hfits
    · refine .inl ⟨_, _, rfl, hs.push rfl rfl (by omega) ?_⟩
      exact .wrapped old (new ++ [⟨_, size⟩]) (by rw [hlive, append_assoc]) hfits hstart hend hold
        (hnew.append (tiles_singleton _ size))
    · exact .inr ⟨_, rfl, hs⟩

/-- `fr_ring_buffer_reserve` finds room that no live block is in, or fails. -/
theorem Holds.reserve (hsize : rb.writeOffset + size < 2 ^ 64) :
    (∃ rb', frRingBufferReserve rb size = (rb', .ok rb'.writeOffset) ∧ Holds rb' live ∧
      Ready rb' size ∧ ∀ b ∈ live, ¬b.Overlap ⟨rb'.writeOffset, size⟩) ∨
    frRingBufferReserve rb size = (rb, .error .noMemory) ∧ ¬Room rb 0 size := by
  rw [Room, Ready, Nat.zero_add, frRingBufferReserve, if_neg h.isOpen, u64_of_lt hsize]
  cases h.layout with
  | linear hwrite hend hstart htiles =>
    have hlinear : ¬rb.writeOffset < rb.dataStart := by omega
    rw [if_neg hlinear, if_neg hlinear]
    split_ifs with hfits hwrap
    · refine .inl ⟨_, rfl, ⟨h.notClosed, h.size_le, h.within, .linear hwrite hend hstart htiles⟩,
        ?_, fun b hb => ?_⟩
      · exact (if_neg hlinear).mpr hfits
      have hroom : Span.Within rb.writeOffset (rb.writeOffset + size) ⟨rb.writeOffset, size⟩ :=
        .inr ⟨le_rfl, le_rfl⟩
      exact (htiles.within b hb).not_overlap hroom hwrite.ge
    · refine .inl ⟨_, rfl, ⟨h.notClosed, h.size_le, h.within,
        .wrapped live [] (append_nil live).symm (by dsimp only; omega) (by dsimp only; omega)
          hend htiles rfl⟩, ?_, fun b hb hover => ?_⟩
      · simp [Ready, hwrap, Nat.zero_lt_of_lt hwrap]
      have hroom : Span.Within 0 size ⟨0, size⟩ := .inr ⟨le_rfl, (Nat.zero_add size).le⟩
      exact hroom.not_overlap (htiles.within b hb) hwrap.le hover.symm
    · exact .inr ⟨rfl, by omega⟩
  | wrapped old new hlive hwrite hstart hend hold hnew =>
    rw [if_pos hwrite, if_pos hwrite]
    split_ifs with hfits
    · refine .inl ⟨_, rfl, ⟨h.notClosed, h.size_le, h.within,
        .wrapped old new hlive hwrite hstart hend hold hnew⟩, ?_, fun b hb hover => ?_⟩
      · exact (if_pos hwrite).mpr hfits
      have hroom : Span.Within rb.writeOffset (rb.writeOffset + size) ⟨rb.writeOffset, size⟩ :=
        .inr ⟨le_rfl, le_rfl⟩
      rw [hlive, mem_append] at hb
      rcases hb with hb | hb
      · exact hroom.not_overlap (hold.within b hb) hfits.le hover.symm
      · exact (hnew.within b hb).not_overlap hroom le_rfl hover
    · exact .inr ⟨rfl, by omega⟩

/-- What there is room for at the write offset is allocated there. -/
theorem Holds.alloc_ready (hready : Ready rb size) :
    ∃ rb', frRingBufferAlloc rb size = (rb', .ok rb.writeOffset) ∧
      ∀ n, Room rb size n → Room rb' 0 n := by
  have hle := h.start_le
  have hsize := h.size_le
  have hwrite := h.write_le
  unfold Ready at hready
  rw [frRingBufferAlloc, if_neg h.isOpen]
  dsimp only [shrinkReserved]
  split at hready
  · rename_i hwrap
    rw [if_pos hwrap, u64_of_lt (by omega), if_pos hready]
    refine ⟨_, rfl, fun n hroom => ?_⟩
    unfold Room Ready at *
    dsimp only
    split at hroom <;> split <;> omega
  · rename_i hlinear
    rw [if_neg hlinear, u64_of_lt (by omega), if_pos hready]
    refine ⟨_, rfl, fun n hroom => ?_⟩
    unfold Room Ready at *
    dsimp only
    split at hroom <;> split <;> omega

/-- What has been reserved can be allocated, at the same offset. -/
theorem Holds.alloc_reserved {n : ℕ} (hsize : rb.writeOffset + size < 2 ^ 64) (hn : n ≤ size)
    (hreserve : frRingBufferReserve rb size = (rb', .ok offset)) :
    (frRingBufferAlloc rb' n).2 = .ok offset := by
  rcases h.reserve hsize with ⟨rb₁, heq, hholds, hready, -⟩ | ⟨heq, -⟩
  · cases hreserve.symm.trans heq
    obtain ⟨rb₂, halloc, -⟩ := hholds.alloc_ready (hready.mono hn)
    rw [halloc]
  · cases hreserve.symm.trans heq

end

/-- `fr_ring_buffer_free` with the size of the oldest block frees that block. -/
theorem Holds.free {b : Span} (h : Holds rb (b :: live)) :
    ∃ rb', frRingBufferFree rb b.size = (some rb', .ok ()) ∧ Holds rb' live ∧
      (0 < total live → ∀ n, Room rb 0 n → Room rb' 0 n) := by
  have hkeep : ∀ {rb'}, rb'.closed = rb.closed → rb'.size = rb.size → Layout rb' live →
      Holds rb' live := fun hclosed hsize hlayout =>
    ⟨hclosed.trans h.notClosed, hsize.le.trans h.size_le,
      fun x hx => by rw [hsize]; exact h.within x (by simp [hx]), hlayout⟩
  have hsize := h.size_le
  rw [frRingBufferFree, freeLinear, h.blockSize_eq]
  cases h.layout with
  | linear hwrite hend hstart htiles =>
    have hsum := htiles.2.total_eq
    rw [if_neg (by omega : ¬rb.writeOffset < rb.dataStart),
      u64_of_lt (by omega : rb.dataStart + b.size < 2 ^ 64)]
    split_ifs with hzero hmuch hpart
    · have := htiles.2
      rw [hzero, Nat.add_zero] at this
      exact ⟨rb, rfl, hkeep rfl rfl (.linear hwrite hend hstart this), fun _ _ hroom => hroom⟩
    · omega
    · exact ⟨_, rfl, hkeep rfl rfl (.linear hwrite hend (.inr (by dsimp only; omega)) htiles.2),
        fun _ _ hroom => hroom.mono rfl rfl (by omega) (by dsimp only; omega)⟩
    · rw [emptyBuffer, if_neg h.isOpen]
      have hrest : rb.dataStart + b.size = rb.dataEnd := by omega
      exact ⟨_, rfl, hkeep rfl rfl (.linear rfl (Nat.zero_le _) (.inl rfl)
        (hrest ▸ htiles.2).shift), by omega⟩
  | wrapped old new hlive hwrite hstart hend hold hnew =>
    -- the oldest block is in the older piece, which is not empty
    obtain ⟨old, rfl⟩ : ∃ rest, old = b :: rest := by
      cases old with
      | nil => exact absurd hold (Nat.ne_of_lt hstart)
      | cons x rest =>
        rw [cons_append, List.cons.injEq] at hlive
        exact ⟨rest, by rw [hlive.1]⟩
    rw [cons_append, List.cons.injEq] at hlive
    have hsum := hold.2.total_eq
    rw [if_pos hwrite, u64_of_lt (by omega)]
    dsimp only
    split_ifs with hzero hpart hempty hnone
    · have := hold.2
      rw [hzero, Nat.add_zero] at this
      exact ⟨rb, rfl, hkeep rfl rfl (.wrapped old new hlive.2 hwrite hstart hend this hnew),
        fun _ _ hroom => hroom⟩
    · exact ⟨_, rfl, hkeep rfl rfl (.wrapped old new hlive.2 (by dsimp only; omega)
        (by dsimp only; omega) hend hold.2 hnew),
        fun _ _ hroom => hroom.mono rfl rfl (by omega) (by dsimp only; omega)⟩
    all_goals have hrest : rb.dataStart + b.size = rb.dataEnd := by omega
    · -- nothing was written behind a reservation at the start
      rw [emptyBuffer, if_neg h.isOpen]
      have hwrite₀ : rb.writeOffset = 0 := by omega
      have hnone : total live = 0 := by
        have := hnew.total_eq
        rw [hlive.2, total_append]
        omega
      refine ⟨_, rfl, hkeep rfl rfl (.linear rfl (Nat.zero_le _) (.inl rfl) ?_), by omega⟩
      rw [hwrite₀] at hnew
      rw [hlive.2]
      exact ((hrest ▸ hold.2).shift).append hnew
    · refine ⟨_, rfl, hkeep rfl rfl (.linear rfl (by dsimp only; omega) (.inl rfl) ?_),
        fun _ _ hroom => hroom.mono rfl rfl (by omega) (.inr ⟨hwrite, .inl rfl⟩)⟩
      rw [hlive.2]
      exact ((hrest ▸ hold.2).shift).append hnew
    · omega

end Calls

section Runs

/-- A buffer and its live blocks, the oldest one first. -/
structure State where
  rb : FrRingBuffer
  live : List Span

/-- The calls of a run. The oldest block is freed, with the size that it was
allocated with. -/
inductive Op where
  | reserve (size : ℕ)
  | alloc (size : ℕ)
  | free

def act (s : State) : Op → State
  | .reserve size => { s with rb := (frRingBufferReserve s.rb size).1 }
  | .alloc size =>
    match frRingBufferAlloc s.rb size with
    | (rb, .ok offset) => ⟨rb, s.live ++ [⟨offset, size⟩]⟩
    | (rb, .error _) => { s with rb := rb }
  | .free =>
    match s.live with
    | [] => s
    | b :: live =>
      match frRingBufferFree s.rb b.size with
      | (some rb, _) => ⟨rb, live⟩
      | (none, _) => s

def run (s : State) (ops : List Op) : State := ops.foldl act s

/-- The size of the call does not make the offset overflow. -/
def NoOverflow (s : State) : Op → Prop
  | .reserve size => s.rb.writeOffset + size < 2 ^ 64
  | .alloc size => s.rb.writeOffset + size < 2 ^ 64
  | .free => True

/-- No call of the run makes the offset overflow. -/
def AllFit : State → List Op → Prop
  | _, [] => True
  | s, op :: ops => NoOverflow s op ∧ AllFit (act s op) ops

/-- What is claimed of the state of a buffer. -/
structure Sound (s : State) : Prop where
  apart : s.live.Pairwise fun a b => ¬a.Overlap b
  within : ∀ b ∈ s.live, b.offset + b.size ≤ s.rb.size
  used : frRingBufferUsed s.rb = total s.live
  reserved : ∀ r n offset rb, s.rb.writeOffset + r < 2 ^ 64 → n ≤ r →
    frRingBufferReserve s.rb r = (rb, .ok offset) → (frRingBufferAlloc rb n).2 = .ok offset

theorem Holds.sound (h : Holds s.rb s.live) : Sound s where
  apart := h.apart
  within := h.within
  used := h.used
  reserved := fun _ _ _ _ hsize hn hreserve => h.alloc_reserved hsize hn hreserve

theorem Holds.act (h : Holds s.rb s.live) {op : Op} (hfit : NoOverflow s op) :
    Holds (act s op).rb (act s op).live := by
  cases op with
  | reserve size =>
    rw [RingBuffer.act]
    rcases h.reserve hfit with ⟨rb, heq, hrb, -⟩ | ⟨heq, -⟩
    · rw [heq]
      exact hrb
    · rw [heq]
      exact h
  | alloc size =>
    rw [RingBuffer.act]
    rcases h.alloc hfit with ⟨rb, offset, heq, hrb⟩ | ⟨rb, heq, hrb⟩ <;> rw [heq] <;> exact hrb
  | free =>
    obtain ⟨rb, live⟩ := s
    cases live with
    | nil => exact h
    | cons b live =>
      obtain ⟨rb', heq, hrb, -⟩ := h.free
      rw [RingBuffer.act]
      dsimp only
      rw [heq]
      exact hrb

theorem Holds.run (h : Holds s.rb s.live) {ops : List Op} (hfit : AllFit s ops) :
    Holds (run s ops).rb (run s ops).live := by
  induction ops generalizing s with
  | nil => exact h
  | cons op ops ih => exact ih (h.act hfit.1) hfit.2

/-- In a run without overflow, the live blocks are apart and in the buffer, the
used bytes are theirs, and what has been reserved can be allocated. -/
theorem ringBuffer_sound (size : ℕ) (rb : FrRingBuffer) (hcreate : frRingBufferCreate size = .ok rb)
    (ops : List Op) (hfit : AllFit ⟨rb, []⟩ ops) : Sound (run ⟨rb, []⟩ ops) :=
  have hholds : Holds (State.mk rb []).rb (State.mk rb []).live := holds_create hcreate
  (hholds.run hfit).sound

/-- Two blocks, of which the older one is freed. -/
theorem ringBuffer_sound_two_blocks :
    Sound (run ⟨⟨1024, 0, 0, 0, 0, false⟩, []⟩ [.reserve 100, .alloc 64, .alloc 32, .free]) :=
  ringBuffer_sound 1024 ⟨1024, 0, 0, 0, 0, false⟩ rfl _
    ⟨(by decide : 0 + 100 < 2 ^ 64), (by decide : 0 + 64 < 2 ^ 64), (by decide : 64 + 32 < 2 ^ 64),
      trivial, trivial⟩

/-- Allocating 10 bytes and then 2^64 - 5 makes the offset overflow: the second
block is granted and does not lie in the buffer, and the third one overlaps it
and the first one. -/
theorem alloc_overflow :
    let s := run ⟨⟨1024, 0, 0, 0, 0, false⟩, []⟩ [.alloc 10, .alloc (2 ^ 64 - 5), .alloc 4]
    frRingBufferCreate 1024 = .ok ⟨1024, 0, 0, 0, 0, false⟩ ∧
      s.live = [⟨0, 10⟩, ⟨10, 2 ^ 64 - 5⟩, ⟨5, 4⟩] ∧
      ¬(s.live.Pairwise fun a b => ¬a.Overlap b) := by
  refine ⟨rfl, rfl, fun h => ?_⟩
  have hlive : [Span.mk 0 10, ⟨10, 2 ^ 64 - 5⟩, ⟨5, 4⟩].Pairwise fun a b => ¬a.Overlap b := h
  exact (pairwise_cons.mp hlive).1 ⟨5, 4⟩ (by simp) ⟨5, by decide⟩

/-- A rejected call changes nothing, unless the data is in two pieces: then the
older piece is freed before the size is compared with the other one. -/
theorem free_unchanged_iff (rb : FrRingBuffer) (n : ℕ) :
    (∀ rb' e, frRingBufferFree rb n = (some rb', .error e) → rb'.dataStart = rb.dataStart ∧
      rb'.dataEnd = rb.dataEnd ∧ rb'.writeOffset = rb.writeOffset) ↔
    ¬(rb.writeOffset < rb.dataStart ∧ blockSize rb + rb.writeOffset < n) := by
  unfold frRingBufferFree freeLinear
  by_cases hwrap : rb.writeOffset < rb.dataStart
  · have hnew : blockSize { rb with dataStart := 0, dataEnd := rb.writeOffset } = rb.writeOffset :=
      if_pos (Nat.zero_le _)
    simp only [hwrap, if_true, true_and, not_lt, hnew]
    constructor
    · intro h
      by_contra hmuch
      rw [if_neg (by omega), if_neg (by omega), if_neg (by omega), if_neg (by omega),
        if_pos (by omega)] at h
      have := (h _ _ rfl).1
      dsimp only at this
      omega
    · intro hle rb' e h
      split_ifs at h
      all_goals first | omega | simp at h
  · simp only [hwrap, if_false, false_and, not_false_eq_true, iff_true]
    intro rb' e h
    split_ifs at h
    all_goals simp at h
    simp [h]

/-- Three blocks, of which the first is freed, and then more than is left: the
second block is lost. -/
theorem free_rejected_loses :
    let s := run ⟨⟨1024, 0, 0, 0, 0, false⟩, []⟩ [.alloc 600, .alloc 400, .free, .alloc 100]
    frRingBufferCreate 1024 = .ok ⟨1024, 0, 0, 0, 0, false⟩ ∧ s.live = [⟨600, 400⟩, ⟨0, 100⟩] ∧
      frRingBufferFree s.rb 600 =
        (some { s.rb with dataStart := 0, dataEnd := 100 }, .error .freeTooMuch) :=
  ⟨rfl, rfl, rfl⟩

end Runs

end FreeRadius.RingBuffer
