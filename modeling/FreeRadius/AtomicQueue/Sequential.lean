import FreeRadius.AtomicQueue.Fifo
import FreeRadius.Library.Fuel

/-!
# An atomic queue used by one thread

Calls that are made one after the other see a bounded list, unless the queue has one slot only:
the sequence number of a slot that holds data is then that of a free slot.
-/

namespace FreeRadius.AtomicQueue

open Library List Function

variable {α : Type}

inductive Call (α : Type) where
  | push (data : Option α)
  | pop

def Call.pc : Call α → Pc α
  | .push none => .idle
  | .push (some data) => .pushLoad data
  | .pop => .popLoad

/-- A thread takes its steps alone until its call returns. -/
def alone : ℕ → FrAtomicQueue α → Pc α → List (Event α) → Option (FrAtomicQueue α × List (Event α))
  | _, aq, .idle, log => some (aq, log)
  | 0, _, _, _ => none
  | fuel + 1, aq, pc, log =>
    let (aq, pc, events) := advance aq pc
    alone fuel aq pc (log ++ events)

/-- What a call returned, where `none` is false, and a pop returned its data. -/
def answer (log : List (Event α)) : Option (Option α) :=
  match log.getLast? with
  | some (.pushed _ _) => some none
  | some (.popped _ data) => some data
  | _ => none

def calls (fuel : ℕ) : FrAtomicQueue α → List (Call α) → Option (List (Option (Option α)))
  | _, [] => some []
  | aq, call :: rest => do
    let (aq, log) ← alone fuel aq call.pc []
    let answers ← calls fuel aq rest
    some (answer log :: answers)

/-- A call to a list of at most `size` values. -/
def boundedCall (size : ℕ) (xs : List α) : Call α → List α × Option (Option α)
  | .push none => (xs, none)
  | .push (some x) => if xs.length < size then (xs ++ [x], some none) else (xs, none)
  | .pop =>
    match xs with
    | [] => ([], none)
    | x :: xs => (xs, some (some x))

def boundedCalls (size : ℕ) : List α → List (Call α) → List (Option (Option α))
  | _, [] => []
  | xs, call :: rest =>
    (boundedCall size xs call).2 :: boundedCalls size (boundedCall size xs call).1 rest

variable {aq : FrAtomicQueue α} {xs : List α}

/-- The queue holds these values. -/
structure Stores (aq : FrAtomicQueue α) (xs : List α) : Prop where
  head : aq.head = aq.tail + xs.length
  le : xs.length ≤ aq.size
  full : ∀ k x, xs[k]? = some x → aq.slot (aq.tail + k) = ⟨aq.tail + k + 1, some x⟩
  free : ∀ t, aq.head ≤ t → t < aq.tail + aq.size → (aq.slot t).seq = t

theorem slot_update {b : FrAtomicQueue α} {e : FrAtomicQueueEntry α} {t t' : ℕ}
    (hsize : b.size = aq.size) (hentry : b.entry = update aq.entry (t % aq.size) e)
    (hlt : t' < t + aq.size) (hgt : t < t' + aq.size) :
    b.slot t' = if t' = t then e else aq.slot t' := by
  rw [FrAtomicQueue.slot, hsize, hentry]
  split_ifs with heq
  · rw [heq, update_self]
  · exact update_of_ne (fun hmod => heq (eq_of_mod_eq hmod hlt hgt)) ..

theorem slot_add_size (t : ℕ) : aq.slot (t + aq.size) = aq.slot t := by
  rw [FrAtomicQueue.slot, Nat.add_mod_right, FrAtomicQueue.slot]

/-- A push to a queue with a free slot. -/
theorem Stores.push (h : Stores aq xs) (hlt : xs.length < aq.size) (x : α) :
    ∃ aq', (∀ fuel, alone (fuel + 5) aq (.pushLoad x) [] =
        some (aq', [.pushWon x, .pushed aq.head x])) ∧
      aq'.size = aq.size ∧ Stores aq' (xs ++ [x]) := by
  have hhead := h.head
  have hseq := h.free aq.head le_rfl (by omega)
  obtain ⟨b, hb, hbhead, hbtail, hbsize⟩ : ∃ b, b = (({ aq with head := aq.head + 1 } :
      FrAtomicQueue α).setData aq.head (some x)).setSeq aq.head (aq.head + 1) ∧
      b.head = aq.head + 1 ∧ b.tail = aq.tail ∧ b.size = aq.size :=
    ⟨_, rfl, rfl, rfl, rfl⟩
  have hentry : b.entry = update aq.entry (aq.head % aq.size) ⟨aq.head + 1, some x⟩ := by
    simp [hb, FrAtomicQueue.setSeq, FrAtomicQueue.setData, FrAtomicQueue.slot]
  have hlen : (xs ++ [x]).length = xs.length + 1 := length_append
  refine ⟨b, fun fuel => by simp [alone, advance, hseq, hb], hbsize, by omega, by omega,
    fun k y hy => ?_, fun t hle htlt => ?_⟩
  · have hk := (List.getElem?_eq_some_iff.mp hy).1
    rw [hbtail, slot_update hbsize hentry (by omega) (by omega)]
    split_ifs with heq
    · obtain rfl : k = xs.length := by omega
      rw [getElem?_concat_length] at hy
      rw [← heq, hy]
    · rw [getElem?_append_left (by omega)] at hy
      exact h.full k y hy
  · rw [slot_update hbsize hentry (by omega) (by omega), if_neg (by omega)]
    exact h.free t (by omega) (by omega)

theorem Stores.pop {x : α} (h : Stores aq (x :: xs)) :
    ∃ aq', (∀ fuel, alone (fuel + 5) aq .popLoad [] =
        some (aq', [.popWon aq.tail, .popped aq.tail (some x)])) ∧
      aq'.size = aq.size ∧ Stores aq' xs := by
  have hhead := h.head
  have hle := h.le
  rw [length_cons] at hhead hle
  have hfirst : aq.slot aq.tail = ⟨aq.tail + 1, some x⟩ := h.full 0 x rfl
  obtain ⟨b, hb, hbhead, hbtail, hbsize⟩ : ∃ b, b = ({ aq with tail := aq.tail + 1 } :
      FrAtomicQueue α).setSeq aq.tail (aq.tail + aq.size) ∧ b.head = aq.head ∧
      b.tail = aq.tail + 1 ∧ b.size = aq.size :=
    ⟨_, rfl, rfl, rfl, rfl⟩
  have hdata : (({ aq with tail := aq.tail + 1 } : FrAtomicQueue α).slot aq.tail).data = some x :=
    congrArg FrAtomicQueueEntry.data hfirst
  have hentry : b.entry = update aq.entry (aq.tail % aq.size) ⟨aq.tail + aq.size, some x⟩ := by
    simp [hb, FrAtomicQueue.setSeq, hdata]
  have hslot {t : ℕ} (hlt : t < aq.tail + aq.size) (hgt : aq.tail < t) : b.slot t = aq.slot t := by
    rw [slot_update hbsize hentry hlt (by omega), if_neg (by omega)]
  refine ⟨b, fun fuel => ?_, hbsize, by omega, by omega, fun k y hy => ?_, fun t hge htlt => ?_⟩
  · simp [alone, advance, hfirst, hdata, hb]
  · have hk := (List.getElem?_eq_some_iff.mp hy).1
    rw [hbtail, hslot (by omega) (by omega), Nat.add_right_comm, Nat.add_assoc _ k]
    exact h.full (k + 1) y hy
  · by_cases heq : t = aq.tail + b.size
    · rw [heq, slot_add_size, slot_update hbsize hentry (by omega) (by omega), if_pos rfl, hbsize]
    · rw [hslot (by omega) (by omega)]
      exact h.free t (by omega) (by omega)

theorem Stores.call (hsize : 2 ≤ aq.size) (h : Stores aq xs) (call : Call α) :
    ∃ aq' log, (∀ fuel, alone (fuel + 5) aq call.pc [] = some (aq', log)) ∧
      aq'.size = aq.size ∧ Stores aq' (boundedCall aq.size xs call).1 ∧
      answer log = (boundedCall aq.size xs call).2 := by
  have hhead := h.head
  have hle := h.le
  match call with
  | .push none => exact ⟨aq, [], fun _ => rfl, rfl, h, rfl⟩
  | .push (some x) =>
    rw [boundedCall]
    split
    · next hlt =>
      obtain ⟨aq', hrun, hsize', h'⟩ := h.push hlt x
      exact ⟨aq', _, hrun, hsize', h', rfl⟩
    next hfull =>
    -- the slot of the next ticket is that of the oldest value
    have hseq : (aq.slot aq.head).seq = aq.tail + 1 := by
      rw [show aq.head = aq.tail + aq.size by omega, slot_add_size]
      obtain ⟨y, hy⟩ : ∃ y, xs[0]? = some y := ⟨_, getElem?_eq_getElem (by omega)⟩
      exact congrArg FrAtomicQueueEntry.seq (h.full 0 y hy)
    have hneg : (aq.tail : ℤ) + 1 - aq.head < 0 := by omega
    exact ⟨aq, [], fun fuel => by simp [alone, Call.pc, advance, hseq, hneg], rfl, h, rfl⟩
  | .pop =>
    cases xs with
    | nil =>
      have hseq := h.free aq.tail hhead.le (by omega)
      exact ⟨aq, [], fun fuel => by simp [alone, Call.pc, advance, hseq], rfl, h, rfl⟩
    | cons x xs =>
      obtain ⟨aq', hrun, hsize', h'⟩ := h.pop
      exact ⟨aq', _, hrun, hsize', h', rfl⟩

theorem Stores.calls (hsize : 2 ≤ aq.size) (h : Stores aq xs) (cs : List (Call α)) (fuel : ℕ) :
    calls (fuel + 5) aq cs = some (boundedCalls aq.size xs cs) := by
  induction cs generalizing aq xs with
  | nil => rfl
  | cons call cs ih =>
    obtain ⟨aq', log, hrun, hsize', h', hanswer⟩ := h.call hsize call
    have hrest := ih (hsize'.symm ▸ hsize) h'
    simp only [AtomicQueue.calls, hrun, Option.bind_eq_bind, Option.bind_some, hrest, hsize', hanswer,
      boundedCalls]

/-- With one slot the second value is written over the first one. -/
theorem calls_oneSlot (x y : α) (fuel : ℕ) :
    calls (fuel + 5) ⟨0, 0, 1, fun i => ⟨i, none⟩⟩ [.push (some x), .push (some y)] =
      some [some none, some none] := by
  simp [calls, alone, Call.pc, advance, FrAtomicQueue.setData, FrAtomicQueue.setSeq,
    FrAtomicQueue.slot, answer]

/-- For one thread a queue is a list of at most `size` values exactly if it has two slots or
more. -/
theorem sequential_isBounded_iff [Inhabited α] {size : ℕ}
    (halloc : frAtomicQueueAlloc α size = some aq) :
    (∀ cs, Returns (fun fuel => calls fuel aq cs) (boundedCalls size [] cs)) ↔ 2 ≤ size := by
  rw [frAtomicQueueAlloc] at halloc
  split at halloc
  · cases halloc
  next hpos =>
  cases halloc
  constructor
  · intro h
    by_contra hlt
    obtain rfl : size = 1 := by omega
    cases (h [.push (some default), .push (some default)]).unique
      (Returns.of_add 5 (calls_oneSlot default default))
  · intro hsize cs
    refine Returns.of_add 5 (Stores.calls hsize ⟨rfl, Nat.zero_le _, (fun _ _ h => by cases h),
      fun t _ ht => ?_⟩ cs)
    exact Nat.mod_eq_of_lt (ht.trans_eq (Nat.zero_add _))

theorem sequential_isBounded_two : ∃ aq, frAtomicQueueAlloc ℕ 2 = some aq ∧
    Returns (fun fuel => calls fuel aq [.push (some 7), .pop]) [some none, some (some 7)] :=
  ⟨_, rfl, (sequential_isBounded_iff rfl).mpr le_rfl _⟩

theorem sequential_oneSlot : ∃ aq, frAtomicQueueAlloc ℕ 1 = some aq ∧
    Returns (fun fuel => calls fuel aq [.push (some 7), .push (some 8)]) [some none, some none] ∧
    boundedCalls 1 [] [.push (some 7), .push (some 8)] = [some none, none] :=
  ⟨_, rfl, Returns.of_add 5 (calls_oneSlot 7 8), rfl⟩

end FreeRadius.AtomicQueue
