import FreeRadius.AtomicQueue.Model
import Mathlib.Data.Int.ModEq
import Mathlib.Data.Finset.Card

/-!
# The atomic queue is a bounded FIFO

Every slot has a current ticket. Its sequence number is the ticket while the
slot is free for the push that has it, and one more once the data is there. The
thread that won the ticket is the only one that changes the slot.
-/

namespace FreeRadius.AtomicQueue

open List Function

variable {α τ : Type} {aq aq' : FrAtomicQueue α} {won won' : List α} {done : List ℕ}
  {pc : Pc α} {t : ℕ} {a b n : ℕ} {data : α} {s : State τ α}

section Residues

theorem eq_of_mod_eq (h : a % n = b % n) (hab : a < b + n) (hba : b < a + n) : a = b := by
  rcases Nat.le_total a b with hle | hle
  · have := Nat.eq_zero_of_dvd_of_lt ((Nat.modEq_iff_dvd' hle).mp h) (by omega)
    omega
  · have := Nat.eq_zero_of_dvd_of_lt ((Nat.modEq_iff_dvd' hle).mp h.symm) (by omega)
    omega

theorem ne_succ_of_mod_eq (hn : 2 ≤ n) (h : a % n = b % n) : a ≠ b + 1 := by
  rintro rfl
  have := eq_of_mod_eq h (by omega) (by omega)
  omega

end Residues

section Threads

/-- What is known where a thread is, if `won` are the data of the pushes that
won a ticket. -/
def PcInv (aq : FrAtomicQueue α) (won : List α) : Pc α → Prop
  | .pushCas _ head => head ≤ (aq.slot head).seq
  | .pushData data head => head < aq.head ∧ (aq.slot head).seq = head ∧ won[head]? = some data
  | .pushStore data head => head < aq.head ∧ (aq.slot head).seq = head ∧
    won[head]? = some data ∧ (aq.slot head).data = some data
  | .popCas tail => tail + 1 ≤ (aq.slot tail).seq
  | .popData tail => tail < aq.tail ∧ (aq.slot tail).seq = tail + 1
  | .popStore tail data => tail < aq.tail ∧ (aq.slot tail).seq = tail + 1 ∧
    ∃ x, data = some x ∧ won[tail]? = some x
  | _ => True

/-- The ticket of a thread that won one. -/
def Pc.ticket : Pc α → Option ℕ
  | .pushData _ head => some head
  | .pushStore _ head => some head
  | .popData tail => some tail
  | .popStore tail _ => some tail
  | _ => none

/-- What the other threads may do: counters and sequence numbers only grow, and
the slot of a ticket is left to its owner. -/
theorem PcInv.frame (h : PcInv aq won pc) (hsize : aq'.size = aq.size)
    (hhead : aq.head ≤ aq'.head) (htail : aq.tail ≤ aq'.tail) (hwon : won <+: won')
    (hseq : ∀ i, (aq.entry i).seq ≤ (aq'.entry i).seq)
    (hslot : ∀ t, pc.ticket = some t → aq'.slot t = aq.slot t) : PcInv aq' won' pc := by
  have hgrow : ∀ t, (aq.slot t).seq ≤ (aq'.slot t).seq := by
    intro t
    rw [FrAtomicQueue.slot, FrAtomicQueue.slot, hsize]
    exact hseq _
  have hget : ∀ (t : ℕ) x, won[t]? = some x → won'[t]? = some x := by
    obtain ⟨rest, rfl⟩ := hwon
    intro t x hx
    rw [getElem?_append_left (List.getElem?_eq_some_iff.mp hx).1, hx]
  cases pc with
  | pushCas data head => exact Nat.le_trans h (hgrow head)
  | popCas tail => exact Nat.le_trans h (hgrow tail)
  | pushData data head =>
    obtain ⟨hlt, hcur, hdata⟩ := h
    exact ⟨by omega, by rw [hslot head rfl]; exact hcur, hget _ _ hdata⟩
  | pushStore data head =>
    obtain ⟨hlt, hcur, hdata, hstored⟩ := h
    rw [PcInv, hslot head rfl]
    exact ⟨by omega, hcur, hget _ _ hdata, hstored⟩
  | popData tail =>
    obtain ⟨hlt, hcur⟩ := h
    exact ⟨by omega, by rw [hslot tail rfl]; exact hcur⟩
  | popStore tail data =>
    obtain ⟨hlt, hcur, x, hx, hdata⟩ := h
    exact ⟨by omega, by rw [hslot tail rfl]; exact hcur, x, hx, hget _ _ hdata⟩
  | _ => trivial

theorem PcInv.seq_eq (h : PcInv aq won pc) (ht : pc.ticket = some t) :
    (aq.slot t).seq = t ∨ (aq.slot t).seq = t + 1 := by
  cases pc <;> cases ht
  · exact .inl h.2.1
  · exact .inl h.2.1
  · exact .inr h.2
  · exact .inr h.2.1

theorem PcInv.ticket_eq {pc' : Pc α} {t' : ℕ} (hsize : 2 ≤ aq.size) (h : PcInv aq won pc)
    (h' : PcInv aq won pc') (ht : pc.ticket = some t) (ht' : pc'.ticket = some t')
    (hmod : t % aq.size = t' % aq.size) : t = t' := by
  have hslot : aq.slot t = aq.slot t' := by rw [FrAtomicQueue.slot, FrAtomicQueue.slot, hmod]
  have hne := ne_succ_of_mod_eq hsize hmod
  have hne' := ne_succ_of_mod_eq hsize hmod.symm
  have hseq := h.seq_eq ht
  have hseq' := h'.seq_eq ht'
  rw [hslot] at hseq
  omega

end Threads

section Slots

/-- What is known of a slot with the current ticket `c`, if `done` are the
tickets that have been popped. -/
structure SlotInv (aq : FrAtomicQueue α) (won : List α) (done : List ℕ) (i c : ℕ) : Prop where
  mod_eq : c % aq.size = i
  head_le : aq.head ≤ c + aq.size
  lt_tail : c < aq.tail + aq.size
  mem_done : ∀ t, t % aq.size = i → (t ∈ done ↔ t < c)
  state : ((aq.entry i).seq = c ∧ aq.tail ≤ c) ∨
    ((aq.entry i).seq = c + 1 ∧ c < aq.head ∧ (aq.entry i).data = won[c]?)

variable {i c t : ℕ}

theorem SlotInv.current (h : SlotInv aq won done (t % aq.size) c) (hsize : 2 ≤ aq.size)
    (hseq : (aq.slot t).seq = t ∨ (aq.slot t).seq = t + 1) : c = t := by
  have hne := ne_succ_of_mod_eq hsize h.mod_eq
  have hne' := ne_succ_of_mod_eq hsize h.mod_eq.symm
  have hstate := h.state
  rw [FrAtomicQueue.slot] at hseq
  omega

theorem SlotInv.next_push (h : SlotInv aq won done (aq.head % aq.size) c) (hsize : 2 ≤ aq.size)
    (htail : aq.tail ≤ aq.head) (hseq : aq.head ≤ (aq.slot aq.head).seq) :
    c = aq.head ∧ (aq.slot aq.head).seq = aq.head := by
  rw [FrAtomicQueue.slot] at hseq ⊢
  have hlt := h.lt_tail
  have hstate := h.state
  -- the data of an earlier lap has a smaller number
  have := eq_of_mod_eq h.mod_eq (by omega) (by omega)
  omega

theorem SlotInv.next_pop (h : SlotInv aq won done (aq.tail % aq.size) c)
    (hseq : aq.tail + 1 ≤ (aq.slot aq.tail).seq) :
    c = aq.tail ∧ (aq.slot aq.tail).seq = aq.tail + 1 ∧ aq.tail < aq.head := by
  rw [FrAtomicQueue.slot] at hseq ⊢
  have hlt := h.lt_tail
  have hstate := h.state
  have := eq_of_mod_eq h.mod_eq (by omega) (by omega)
  omega

theorem SlotInv.claim_push (h : SlotInv aq won done i c) (hwon : won.length = aq.head)
    (hcur : i = aq.head % aq.size → c = aq.head) (hsize : 0 < aq.size) (data : α) :
    SlotInv { aq with head := aq.head + 1 } (won ++ [data]) done i c where
  mod_eq := h.mod_eq
  head_le := by
    have hle := h.head_le
    by_cases heq : aq.head = c + aq.size
    · have := hcur (by rw [heq, Nat.add_mod_right, h.mod_eq])
      omega
    · dsimp only
      omega
  lt_tail := h.lt_tail
  mem_done := h.mem_done
  state := by
    rcases h.state with hfree | ⟨hfull, hhead, hdata⟩
    · exact .inl hfree
    · refine .inr ⟨hfull, Nat.lt_succ_of_lt hhead, ?_⟩
      rw [getElem?_append_left (by omega)]
      exact hdata

theorem SlotInv.claim_pop (h : SlotInv aq won done i c)
    (hcur : i = aq.tail % aq.size → (aq.entry i).seq = aq.tail + 1) :
    SlotInv { aq with tail := aq.tail + 1 } won done i c where
  mod_eq := h.mod_eq
  head_le := h.head_le
  lt_tail := by
    have := h.lt_tail
    dsimp only
    omega
  mem_done := h.mem_done
  state := by
    rcases h.state with ⟨hfree, htail⟩ | hfull
    · refine .inl ⟨hfree, ?_⟩
      by_cases heq : c = aq.tail
      · have := hcur (by rw [← heq, h.mod_eq])
        omega
      · dsimp only
        omega
    · exact .inr hfull

theorem entry_setData (t j : ℕ) (data : Option α) : (aq.setData t data).entry j =
    if j = t % aq.size then { aq.slot t with data := data } else aq.entry j :=
  update_apply _ _ _ _

theorem entry_setSeq (t j seq : ℕ) : (aq.setSeq t seq).entry j =
    if j = t % aq.size then { aq.slot t with seq := seq } else aq.entry j :=
  update_apply _ _ _ _

theorem slot_setData_self (t : ℕ) (data : Option α) :
    (aq.setData t data).slot t = { aq.slot t with data := data } := update_self _ _ _

theorem slot_setSeq_self (t seq : ℕ) :
    (aq.setSeq t seq).slot t = { aq.slot t with seq := seq } := update_self _ _ _

theorem SlotInv.other (h : SlotInv aq won done i c) (hentry : aq'.entry i = aq.entry i)
    (hsize : aq'.size = aq.size) (hhead : aq'.head = aq.head) (htail : aq'.tail = aq.tail)
    {done' : List ℕ} (hdone : ∀ t, t % aq.size = i → (t ∈ done' ↔ t ∈ done)) :
    SlotInv aq' won done' i c where
  mod_eq := by rw [hsize, h.mod_eq]
  head_le := by rw [hhead, hsize]; exact h.head_le
  lt_tail := by rw [htail, hsize]; exact h.lt_tail
  mem_done := fun t ht => (hdone t (by rw [← hsize, ht])).trans (h.mem_done t (by rw [← hsize, ht]))
  state := by rw [hentry, hhead, htail]; exact h.state

theorem SlotInv.publish (h : SlotInv aq won done (t % aq.size) t) (hhead : t < aq.head)
    (hdata : (aq.slot t).data = won[t]?) :
    SlotInv (aq.setSeq t (t + 1)) won done (t % aq.size) t where
  mod_eq := h.mod_eq
  head_le := h.head_le
  lt_tail := h.lt_tail
  mem_done := h.mem_done
  state := by
    rw [entry_setSeq, if_pos rfl]
    exact .inr ⟨rfl, hhead, hdata⟩

theorem SlotInv.release (h : SlotInv aq won done (t % aq.size) t) (htail : t < aq.tail)
    (hle : aq.tail ≤ aq.head) (hsize : 2 ≤ aq.size) :
    SlotInv (aq.setSeq t (t + aq.size)) won (done ++ [t]) (t % aq.size) (t + aq.size) where
  mod_eq := Nat.add_mod_right t aq.size
  head_le := Nat.le_trans h.head_le (Nat.le_add_right _ _)
  lt_tail := Nat.add_lt_add_right htail _
  mem_done := by
    intro t' hmod
    have ht' : t' % aq.size = t % aq.size := hmod
    rw [mem_append, mem_singleton, h.mem_done t' ht']
    constructor
    · rintro (hlt | rfl) <;> omega
    · intro hlt
      by_contra hnot
      exact hnot (.inr (eq_of_mod_eq ht' (by omega) (by omega)))
  state := by
    rw [entry_setSeq, if_pos rfl]
    exact .inl ⟨rfl, Nat.le_trans hle h.head_le⟩

end Slots

section Invariant

/-- What holds in every state of a run. -/
structure Inv (s : State τ α) : Prop where
  size : 2 ≤ s.aq.size
  head_eq : (pushWon s.log).length = s.aq.head
  tail_eq : popWon s.log = List.range s.aq.tail
  tail_le : s.aq.tail ≤ s.aq.head
  slots : ∀ i < s.aq.size, ∃ c, SlotInv s.aq (pushWon s.log) ((popped s.log).map Prod.fst) i c
  threads : ∀ th, PcInv s.aq (pushWon s.log) (s.thread th)
  owner : ∀ th th' t, (s.thread th).ticket = some t → (s.thread th').ticket = some t → th = th'
  popped_value : ∀ t data, (t, data) ∈ popped s.log →
    ∃ x, data = some x ∧ (pushWon s.log)[t]? = some x
  popped_once : ((popped s.log).map Prod.fst).Nodup
  pushed_value : ∀ t x, (t, x) ∈ pushed s.log → (pushWon s.log)[t]? = some x ∧ t < (s.aq.slot t).seq
  pushed_once : ((pushed s.log).map Prod.fst).Nodup

variable [DecidableEq τ] {s : State τ α} {th : τ}

omit [DecidableEq τ] in
theorem Inv.slot (h : Inv s) (t : ℕ) :
    ∃ c, SlotInv s.aq (pushWon s.log) ((popped s.log).map Prod.fst) (t % s.aq.size) c :=
  h.slots _ (Nat.mod_lt t (by have := h.size; omega))

theorem threads_update (hpc : PcInv aq' won' pc)
    (hother : ∀ th', th' ≠ th → PcInv aq' won' (s.thread th')) (th' : τ) :
    PcInv aq' won' (Function.update s.thread th pc th') := by
  rw [update_apply]
  split_ifs with heq
  · exact hpc
  · exact hother th' heq

/-- A step that wins no ticket leaves the tickets to their owners. -/
theorem Inv.owner_update (h : Inv s)
    (hpc : ∀ t, pc.ticket = some t → ∀ th', th' ≠ th → (s.thread th').ticket ≠ some t) :
    ∀ th₁ th₂ t, (Function.update s.thread th pc th₁).ticket = some t →
      (Function.update s.thread th pc th₂).ticket = some t → th₁ = th₂ := by
  intro th₁ th₂ t h₁ h₂
  rw [update_apply] at h₁ h₂
  split_ifs at h₁ h₂ with heq₁ heq₂ heq₂
  · rw [heq₁, heq₂]
  · exact absurd h₂ (hpc t h₁ th₂ heq₂)
  · exact absurd h₁ (hpc t h₂ th₁ heq₁)
  · exact h.owner th₁ th₂ t h₁ h₂

section

variable (h : Inv s)

include h

omit [DecidableEq τ] in
/-- A ticket that the thread already has is owned by no other thread. -/
theorem Inv.ticket_kept (hpc : ∀ t, pc.ticket = some t → (s.thread th).ticket = some t) :
    ∀ t, pc.ticket = some t → ∀ th', th' ≠ th → (s.thread th').ticket ≠ some t :=
  fun t ht th' hth hticket => hth (h.owner th' th t hticket (hpc t ht))

theorem Inv.goto (hpc : PcInv s.aq (pushWon s.log) pc)
    (hticket : ∀ t, pc.ticket = some t → (s.thread th).ticket = some t) : Inv (s.goto th pc) where
  size := h.size
  head_eq := h.head_eq
  tail_eq := h.tail_eq
  tail_le := h.tail_le
  slots := h.slots
  threads := threads_update hpc fun th' _ => h.threads th'
  owner := h.owner_update (h.ticket_kept hticket)
  popped_value := h.popped_value
  popped_once := h.popped_once
  pushed_value := h.pushed_value
  pushed_once := h.pushed_once

theorem Inv.claim_push (hpc : s.thread th = .pushCas data s.aq.head) :
    Inv ⟨{ s.aq with head := s.aq.head + 1 },
      Function.update s.thread th (.pushData data s.aq.head), s.log ++ [.pushWon data]⟩ := by
  have hwon : pushWon (s.log ++ [.pushWon data]) = pushWon s.log ++ [data] := by simp [pushWon]
  have hpopWon : popWon (s.log ++ [.pushWon data]) = popWon s.log := by simp [popWon]
  have hpopped : popped (s.log ++ [.pushWon data]) = popped s.log := by simp [popped]
  have hpushed : pushed (s.log ++ [.pushWon data]) = pushed s.log := by simp [pushed]
  have hcas : s.aq.head ≤ (s.aq.slot s.aq.head).seq := by
    have := h.threads th
    rwa [hpc] at this
  obtain ⟨c, hslot⟩ := h.slot s.aq.head
  obtain ⟨rfl, hseq⟩ := hslot.next_push h.size h.tail_le hcas
  have hget : ∀ (t : ℕ) x, (pushWon s.log)[t]? = some x → (pushWon s.log ++ [data])[t]? = some x :=
    fun t x hx => by rw [getElem?_append_left (List.getElem?_eq_some_iff.mp hx).1, hx]
  constructor
  case size => exact h.size
  case head_eq =>
    rw [hwon, length_append, h.head_eq]
    rfl
  case tail_eq =>
    rw [hpopWon]
    exact h.tail_eq
  case tail_le => exact Nat.le_succ_of_le h.tail_le
  case slots =>
    intro i hi
    obtain ⟨c, hc⟩ := h.slots i hi
    rw [hwon, hpopped]
    refine ⟨c, hc.claim_push h.head_eq (fun hcur => ?_) (by have := h.size; omega) data⟩
    subst hcur
    exact hc.current h.size (.inl hseq)
  case threads =>
    rw [hwon]
    refine threads_update ⟨Nat.lt_succ_self _, hseq, ?_⟩ fun th' _ =>
      (h.threads th').frame rfl (Nat.le_succ _) le_rfl (prefix_append _ _)
        (fun _ => le_rfl) fun _ _ => rfl
    rw [← h.head_eq]
    simp
  case owner =>
    refine h.owner_update fun t ht th' _ hth' => ?_
    cases ht
    -- no thread has a ticket that is not given yet
    have := h.threads th'
    cases hcase : s.thread th' <;> rw [hcase] at this hth' <;> cases hth'
    · exact absurd this.1 (by omega)
    · exact absurd this.1 (by omega)
    · exact absurd this.1 (by have := h.tail_le; omega)
    · exact absurd this.1 (by have := h.tail_le; omega)
  case popped_value =>
    rw [hpopped, hwon]
    intro t v hmem
    obtain ⟨x, hx, hget'⟩ := h.popped_value t v hmem
    exact ⟨x, hx, hget t x hget'⟩
  case popped_once =>
    rw [hpopped]
    exact h.popped_once
  case pushed_value =>
    rw [hpushed, hwon]
    intro t x hmem
    exact ⟨hget t x (h.pushed_value t x hmem).1, (h.pushed_value t x hmem).2⟩
  case pushed_once =>
    rw [hpushed]
    exact h.pushed_once

theorem Inv.claim_pop (hpc : s.thread th = .popCas s.aq.tail) :
    Inv ⟨{ s.aq with tail := s.aq.tail + 1 },
      Function.update s.thread th (.popData s.aq.tail), s.log ++ [.popWon s.aq.tail]⟩ := by
  have hwon : pushWon (s.log ++ [.popWon s.aq.tail]) = pushWon s.log := by simp [pushWon]
  have hpopWon : popWon (s.log ++ [.popWon s.aq.tail]) = popWon s.log ++ [s.aq.tail] := by
    simp [popWon]
  have hpopped : popped (s.log ++ [.popWon s.aq.tail]) = popped s.log := by simp [popped]
  have hpushed : pushed (s.log ++ [.popWon s.aq.tail]) = pushed s.log := by simp [pushed]
  have hcas : s.aq.tail + 1 ≤ (s.aq.slot s.aq.tail).seq := by
    have := h.threads th
    rwa [hpc] at this
  obtain ⟨c, hslot⟩ := h.slot s.aq.tail
  obtain ⟨rfl, hseq, hlt⟩ := hslot.next_pop hcas
  constructor
  case size => exact h.size
  case head_eq =>
    rw [hwon]
    exact h.head_eq
  case tail_eq => rw [hpopWon, h.tail_eq, range_succ]
  case tail_le => exact hlt
  case slots =>
    intro i hi
    obtain ⟨c, hc⟩ := h.slots i hi
    rw [hwon, hpopped]
    refine ⟨c, hc.claim_pop fun hcur => ?_⟩
    subst hcur
    exact hseq
  case threads =>
    rw [hwon]
    exact threads_update ⟨Nat.lt_succ_self _, hseq⟩ fun th' _ =>
      (h.threads th').frame rfl le_rfl (Nat.le_succ _) (prefix_refl _)
        (fun _ => le_rfl) fun _ _ => rfl
  case owner =>
    refine h.owner_update fun t ht th' _ hth' => ?_
    cases ht
    -- a push with this ticket has published its data
    have := h.threads th'
    cases hcase : s.thread th' <;> rw [hcase] at this hth' <;> cases hth'
    · exact absurd this.2.1 (by omega)
    · exact absurd this.2.1 (by omega)
    · exact absurd this.1 (by omega)
    · exact absurd this.1 (by omega)
  case popped_value =>
    rw [hpopped, hwon]
    exact h.popped_value
  case popped_once =>
    rw [hpopped]
    exact h.popped_once
  case pushed_value =>
    rw [hpushed, hwon]
    exact h.pushed_value
  case pushed_once =>
    rw [hpushed]
    exact h.pushed_once

/-- The owner of a ticket changes its slot, and no one wins another ticket. -/
theorem Inv.change_slot (ht : (s.thread th).ticket = some t) {log : List (Event α)}
    (hsize : aq'.size = s.aq.size) (hhead : aq'.head = s.aq.head) (htail : aq'.tail = s.aq.tail)
    (hseq : (s.aq.slot t).seq ≤ (aq'.slot t).seq)
    (hentry : ∀ i, i ≠ t % s.aq.size → aq'.entry i = s.aq.entry i)
    (hwon : pushWon log = pushWon s.log) (hpopWon : popWon log = popWon s.log)
    (hpc : PcInv aq' (pushWon s.log) pc)
    (hticket : ∀ t', pc.ticket = some t' → (s.thread th).ticket = some t')
    (hslot : ∃ c, SlotInv aq' (pushWon s.log) ((popped log).map Prod.fst) (t % s.aq.size) c)
    (hdone : ∀ t', t' ≠ t → (t' ∈ (popped log).map Prod.fst ↔ t' ∈ (popped s.log).map Prod.fst))
    (hvalue : ∀ t' v, (t', v) ∈ popped log → ∃ x, v = some x ∧ (pushWon s.log)[t']? = some x)
    (hpopped : ((popped log).map Prod.fst).Nodup)
    (hstored : ∀ t' x, (t', x) ∈ pushed log → (t', x) ∈ pushed s.log ∨
      t' = t ∧ (pushWon s.log)[t]? = some x ∧ t < (aq'.slot t).seq)
    (hpushed : ((pushed log).map Prod.fst).Nodup) :
    Inv ⟨aq', Function.update s.thread th pc, log⟩ := by
  have hgrow : ∀ i, (s.aq.entry i).seq ≤ (aq'.entry i).seq := by
    intro i
    by_cases hi : i = t % s.aq.size
    · rw [hi]
      rwa [FrAtomicQueue.slot, FrAtomicQueue.slot, hsize] at hseq
    · rw [hentry i hi]
  constructor
  case size => rw [hsize]; exact h.size
  case head_eq => rw [hwon, hhead]; exact h.head_eq
  case tail_eq => rw [hpopWon, htail]; exact h.tail_eq
  case tail_le => rw [hhead, htail]; exact h.tail_le
  case slots =>
    intro i hi
    rw [hwon]
    by_cases heq : i = t % s.aq.size
    · rw [heq]
      exact hslot
    obtain ⟨c, hc⟩ := h.slots i (hsize ▸ hi)
    refine ⟨c, hc.other (hentry i heq) hsize hhead htail fun t' ht' => hdone t' ?_⟩
    rintro rfl
    exact heq ht'.symm
  case threads =>
    rw [hwon]
    refine threads_update hpc fun th' hth => (h.threads th').frame hsize hhead.ge htail.ge
      (prefix_refl _) hgrow fun t' ht' => ?_
    rw [FrAtomicQueue.slot, FrAtomicQueue.slot, hsize, hentry]
    intro hmod
    obtain rfl := PcInv.ticket_eq h.size (h.threads th') (h.threads th) ht' ht hmod
    exact hth (h.owner th' th t' ht' ht)
  case owner => exact h.owner_update (h.ticket_kept hticket)
  case popped_value => rw [hwon]; exact hvalue
  case popped_once => exact hpopped
  case pushed_value =>
    rw [hwon]
    intro t' x hmem
    obtain hold | ⟨rfl, hnew⟩ := hstored t' x hmem
    · obtain ⟨hget, hlt⟩ := h.pushed_value t' x hold
      refine ⟨hget, hlt.trans_le ?_⟩
      rw [FrAtomicQueue.slot, FrAtomicQueue.slot, hsize]
      exact hgrow _
    · exact hnew
  case pushed_once => exact hpushed

theorem Inv.write_data (hpc : s.thread th = .pushData data t) :
    Inv ⟨s.aq.setData t (some data), Function.update s.thread th (.pushStore data t), s.log⟩ := by
  obtain ⟨hlt, hseq, hdata⟩ : t < s.aq.head ∧ (s.aq.slot t).seq = t ∧
      (pushWon s.log)[t]? = some data := by
    have := h.threads th
    rwa [hpc] at this
  have hself := @slot_setData_self _ s.aq t (some data)
  refine h.change_slot (by rw [hpc]; rfl) rfl rfl rfl (by rw [hself])
    (fun i hi => by rw [entry_setData, if_neg hi]) rfl rfl ⟨hlt, ?_, hdata, ?_⟩
    (fun t' ht' => by rw [hpc]; exact ht') ?_ (fun _ _ => Iff.rfl) h.popped_value h.popped_once
    (fun _ _ => .inl) h.pushed_once
  · rw [hself]
    exact hseq
  · rw [hself]
  · obtain ⟨c, hc⟩ := h.slot t
    obtain rfl := hc.current h.size (.inl hseq)
    refine ⟨c, hc.mod_eq, hc.head_le, hc.lt_tail, hc.mem_done, ?_⟩
    rcases hc.state with ⟨hfree, htail⟩ | ⟨hfull, -⟩
    · exact .inl ⟨by rw [entry_setData, if_pos rfl]; exact hseq, htail⟩
    · rw [FrAtomicQueue.slot] at hseq
      omega

theorem Inv.publish (hpc : s.thread th = .pushStore data t) :
    Inv ⟨s.aq.setSeq t (t + 1), Function.update s.thread th .idle,
      s.log ++ [.pushed t data]⟩ := by
  have hwon : pushWon (s.log ++ [.pushed t data]) = pushWon s.log := by simp [pushWon]
  have hpopWon : popWon (s.log ++ [.pushed t data]) = popWon s.log := by simp [popWon]
  have hpopped : popped (s.log ++ [.pushed t data]) = popped s.log := by simp [popped]
  have hpushed : pushed (s.log ++ [.pushed t data]) = pushed s.log ++ [(t, data)] := by simp [pushed]
  obtain ⟨hlt, hseq, hdata, hstored⟩ : t < s.aq.head ∧ (s.aq.slot t).seq = t ∧
      (pushWon s.log)[t]? = some data ∧ (s.aq.slot t).data = some data := by
    have := h.threads th
    rwa [hpc] at this
  have hself := @slot_setSeq_self _ s.aq t (t + 1)
  refine h.change_slot (by rw [hpc]; rfl) rfl rfl rfl (by rw [hself, hseq]; exact Nat.le_succ t)
    (fun i hi => by rw [entry_setSeq, if_neg hi]) hwon hpopWon trivial nofun ?_
    (fun _ _ => by rw [hpopped]) (by rw [hpopped]; exact h.popped_value)
    (by rw [hpopped]; exact h.popped_once) ?_ ?_
  · rw [hpopped]
    obtain ⟨c, hc⟩ := h.slot t
    obtain rfl := hc.current h.size (.inl hseq)
    exact ⟨c, hc.publish hlt (hstored.trans hdata.symm)⟩
  · rw [hpushed]
    intro t' x hmem
    rw [mem_append, mem_singleton] at hmem
    refine hmem.imp_right fun hnew => ?_
    cases hnew
    exact ⟨rfl, hdata, by rw [hself]; exact Nat.lt_succ_self t⟩
  · rw [hpushed, map_append, map_singleton, nodup_append]
    refine ⟨h.pushed_once, nodup_singleton _, fun t' hmem b hb => ?_⟩
    rw [mem_singleton] at hb
    rintro rfl
    obtain ⟨⟨t'', x⟩, hmem', rfl⟩ := mem_map.mp hmem
    -- the sequence number of the slot would be larger already
    have hold := (h.pushed_value _ x hmem').2
    dsimp only at hold hb
    rw [hb, hseq] at hold
    omega

theorem Inv.release {data : Option α} (hpc : s.thread th = .popStore t data) :
    Inv ⟨s.aq.setSeq t (t + s.aq.size), Function.update s.thread th .idle,
      s.log ++ [.popped t data]⟩ := by
  have hwon : pushWon (s.log ++ [.popped t data]) = pushWon s.log := by simp [pushWon]
  have hpopWon : popWon (s.log ++ [.popped t data]) = popWon s.log := by simp [popWon]
  have hpopped : popped (s.log ++ [.popped t data]) = popped s.log ++ [(t, data)] := by simp [popped]
  have hpushed : pushed (s.log ++ [.popped t data]) = pushed s.log := by simp [pushed]
  have hsize := h.size
  obtain ⟨hlt, hseq, hvalue⟩ : t < s.aq.tail ∧ (s.aq.slot t).seq = t + 1 ∧
      ∃ x, data = some x ∧ (pushWon s.log)[t]? = some x := by
    have := h.threads th
    rwa [hpc] at this
  have hself := @slot_setSeq_self _ s.aq t (t + s.aq.size)
  obtain ⟨c, hslot⟩ := h.slot t
  obtain rfl := hslot.current h.size (.inr hseq)
  refine h.change_slot (by rw [hpc]; rfl) rfl rfl rfl (by rw [hself, hseq]; dsimp only; omega)
    (fun i hi => by rw [entry_setSeq, if_neg hi]) hwon hpopWon trivial nofun ?_ ?_ ?_ ?_
    (fun _ _ => by rw [hpushed]; exact .inl) (by rw [hpushed]; exact h.pushed_once) <;>
    rw [hpopped]
  · rw [map_append, map_singleton]
    exact ⟨c + s.aq.size, hslot.release hlt h.tail_le h.size⟩
  · intro t' hne
    rw [map_append, map_singleton, mem_append, mem_singleton, or_iff_left hne]
  · intro t' v hmem
    rw [mem_append, mem_singleton] at hmem
    rcases hmem with hmem | hmem
    · exact h.popped_value t' v hmem
    · cases hmem
      exact hvalue
  · rw [map_append, map_singleton, nodup_append]
    refine ⟨h.popped_once, nodup_singleton _, fun t' hmem b hb => ?_⟩
    rw [mem_singleton] at hb
    rintro rfl
    have := (hslot.mem_done t' (by rw [hb])).mp hmem
    omega

/-- A thread without a ticket leaves the queue as it is. -/
theorem Inv.search (hpc : advance s.aq (s.thread th) = (s.aq, pc, []))
    (hinv : PcInv s.aq (pushWon s.log) pc) (hnone : pc.ticket = none) : Inv (act s (.step th)) := by
  rw [act, hpc]
  dsimp only
  rw [append_nil]
  refine h.goto hinv fun t ht => ?_
  cases hnone.symm.trans ht

theorem Inv.step_pushSeq {head : ℕ} (hcase : s.thread th = .pushSeq data head) :
    Inv (act s (.step th)) := by
  have hstep := congrArg (advance s.aq) hcase
  dsimp only [advance] at hstep
  split_ifs at hstep with hfull htaken
  · exact h.search hstep trivial rfl
  · exact h.search hstep trivial rfl
  · refine h.search hstep ?_ rfl
    rw [PcInv]
    omega

theorem Inv.step_popSeq {tail : ℕ} (hcase : s.thread th = .popSeq tail) : Inv (act s (.step th)) := by
  have hstep := congrArg (advance s.aq) hcase
  dsimp only [advance] at hstep
  split_ifs at hstep with hempty htaken
  · exact h.search hstep trivial rfl
  · exact h.search hstep trivial rfl
  · refine h.search hstep ?_ rfl
    rw [PcInv]
    omega

/-- The slot holds what the push with the ticket of the pop has stored. -/
theorem Inv.step_popData {tail : ℕ} (hcase : s.thread th = .popData tail) :
    Inv (act s (.step th)) := by
  have hthread := h.threads th
  rw [hcase] at hthread
  obtain ⟨hlt, hseq⟩ := hthread
  obtain ⟨c, hslot⟩ := h.slot tail
  obtain rfl := hslot.current h.size (.inr hseq)
  rw [act, hcase, advance]
  dsimp only
  rw [append_nil]
  refine h.goto ⟨hlt, hseq, ?_⟩ (by simp [hcase, Pc.ticket])
  rcases hslot.state with ⟨hfree, -⟩ | ⟨-, hhead, hdata⟩
  · rw [FrAtomicQueue.slot] at hseq
    omega
  · rw [← h.head_eq] at hhead
    exact ⟨(pushWon s.log)[c], by rw [FrAtomicQueue.slot, hdata, getElem?_eq_getElem hhead],
      getElem?_eq_getElem hhead⟩

theorem Inv.step (th : τ) : Inv (act s (.step th)) := by
  cases hcase : s.thread th with
  | idle => exact h.search (congrArg _ hcase) trivial rfl
  | pushLoad data => exact h.search (congrArg _ hcase) trivial rfl
  | pushSeq data head => exact h.step_pushSeq hcase
  | pushCas data head =>
    by_cases hwin : s.aq.head = head
    · subst hwin
      rw [act, hcase, advance, if_pos rfl]
      exact h.claim_push hcase
    · exact h.search ((congrArg _ hcase).trans (if_neg hwin)) trivial rfl
  | pushData data head =>
    rw [act, hcase, advance]
    dsimp only
    rw [append_nil]
    exact h.write_data hcase
  | pushStore data head =>
    rw [act, hcase, advance]
    exact h.publish hcase
  | popLoad => exact h.search (congrArg _ hcase) trivial rfl
  | popSeq tail => exact h.step_popSeq hcase
  | popCas tail =>
    by_cases hwin : s.aq.tail = tail
    · subst hwin
      rw [act, hcase, advance, if_pos rfl]
      exact h.claim_pop hcase
    · exact h.search ((congrArg _ hcase).trans (if_neg hwin)) trivial rfl
  | popData tail => exact h.step_popData hcase
  | popStore tail data =>
    rw [act, hcase, advance]
    exact h.release hcase

theorem Inv.act (a : Action τ α) : Inv (act s a) := by
  cases a with
  | push th data =>
    dsimp only [AtomicQueue.act]
    split
    · exact h.goto trivial (by simp [Pc.ticket])
    · exact h
  | pop th =>
    rw [AtomicQueue.act]
    split
    · exact h.goto trivial (by simp [Pc.ticket])
    · exact h
  | step th => exact h.step th

theorem Inv.run (actions : List (Action τ α)) : Inv (run s actions) := by
  induction actions generalizing s with
  | nil => exact h
  | cons a actions ih => exact ih (h.act a)

end

omit [DecidableEq τ] in
theorem inv_start {size : ℕ} (hsize : 2 ≤ size) (halloc : frAtomicQueueAlloc α size = some aq) :
    Inv (start aq : State τ α) := by
  rw [frAtomicQueueAlloc, if_neg (by omega)] at halloc
  cases halloc
  constructor
  case slots =>
    intro i hi
    have hmod : i % size = i := Nat.mod_eq_of_lt hi
    refine ⟨i, hmod, Nat.zero_le _, by simpa [start] using hi, fun t ht => ?_, .inl ⟨rfl, Nat.zero_le _⟩⟩
    have hle : t % size ≤ t := Nat.mod_le t size
    simp only [start, popped, filterMap_nil, map_nil, not_mem_nil, false_iff] at ht ⊢
    omega
  all_goals simp [start, pushWon, popWon, popped, pushed, PcInv, Pc.ticket, hsize]

end Invariant

section Fifo

/-- The record of a bounded FIFO queue. -/
structure IsFifo (size : ℕ) (log : List (Event α)) : Prop where
  /-- The pops that win take the tickets in the order of the pushes that won. -/
  in_order : popWon log = List.range (popWon log).length
  claimed_le : (popWon log).length ≤ (pushWon log).length
  /-- A pop that returns has won, and returns what the push with its ticket pushed. -/
  popped_value : ∀ t data, (t, data) ∈ popped log →
    t ∈ popWon log ∧ ∃ x, data = some x ∧ (pushWon log)[t]? = some x
  /-- No two pops return the data of one push. -/
  popped_once : ((popped log).map Prod.fst).Nodup
  /-- A push that returns true has won. -/
  pushed_value : ∀ t x, (t, x) ∈ pushed log → (pushWon log)[t]? = some x
  pushed_once : ((pushed log).map Prod.fst).Nodup
  /-- At most `size` pushes have won whose data no pop has returned yet. -/
  bounded : (pushWon log).length ≤ (popped log).length + size

/-- A ticket that is given and not popped yet is the current one of its slot, so
there are no more of them than slots. -/
theorem Inv.bounded (h : Inv s) : s.aq.head ≤ ((popped s.log).map Prod.fst).length + s.aq.size := by
  generalize hdone : (popped s.log).map Prod.fst = done
  obtain ⟨live, hlive⟩ : ∃ live, live = (Finset.range s.aq.head).filter (· ∉ done) := ⟨_, rfl⟩
  have hpos : 0 < s.aq.size := by
    have := h.size
    omega
  have hcur : ∀ t ∈ live, ∀ c, SlotInv s.aq (pushWon s.log) done (t % s.aq.size) c → t = c := by
    intro t ht c hc
    rw [hlive, Finset.mem_filter, Finset.mem_range, hc.mem_done t rfl] at ht
    have := hc.head_le
    exact eq_of_mod_eq hc.mod_eq.symm (by omega) (by omega)
  have hcard : live.card ≤ (Finset.range s.aq.size).card := by
    refine Finset.card_le_card_of_injOn (· % s.aq.size)
      (fun t _ => Finset.mem_coe.mpr (Finset.mem_range.mpr (Nat.mod_lt t hpos))) ?_
    intro t ht t' ht' hmod
    obtain ⟨c, hc⟩ := h.slot t
    rw [hdone] at hc
    have hmod' : t % s.aq.size = t' % s.aq.size := hmod
    rw [hcur t (Finset.mem_coe.mp ht) c hc, hcur t' (Finset.mem_coe.mp ht') c (hmod' ▸ hc)]
  have hcover : Finset.range s.aq.head ⊆ done.toFinset ∪ live := by
    intro t ht
    rw [hlive, Finset.mem_union, mem_toFinset, Finset.mem_filter]
    tauto
  have hunion := (Finset.card_le_card hcover).trans (Finset.card_union_le _ _)
  have hdone' := toFinset_card_le done
  rw [Finset.card_range] at hcard hunion
  omega

theorem Inv.isFifo (h : Inv s) : IsFifo s.aq.size s.log where
  in_order := by rw [h.tail_eq, length_range]
  claimed_le := by
    rw [h.tail_eq, length_range, h.head_eq]
    exact h.tail_le
  popped_value := by
    intro t data hmem
    refine ⟨?_, h.popped_value t data hmem⟩
    obtain ⟨c, hc⟩ := h.slot t
    have hlt := (hc.mem_done t rfl).mp (mem_map.mpr ⟨_, hmem, rfl⟩)
    have htail := hc.lt_tail
    rw [h.tail_eq, mem_range]
    -- the slot has gone on to a later lap, so a pop had the ticket
    by_contra hnot
    have := eq_of_mod_eq hc.mod_eq (by omega) (by omega)
    omega
  popped_once := h.popped_once
  pushed_value := fun t x hmem => (h.pushed_value t x hmem).1
  pushed_once := h.pushed_once
  bounded := by
    have := h.bounded
    rwa [length_map, ← h.head_eq] at this

variable [DecidableEq τ]

theorem run_size (s : State τ α) (actions : List (Action τ α)) :
    (run s actions).aq.size = s.aq.size := by
  have hact : ∀ (s : State τ α) a, (act s a).aq.size = s.aq.size := by
    intro s a
    cases a with
    | push th data =>
      dsimp only [act]
      split <;> rfl
    | pop th =>
      rw [act]
      split <;> rfl
    | step th =>
      rw [act]
      cases s.thread th <;> simp only [advance]
      all_goals first | rfl | split_ifs <;> rfl
  induction actions generalizing s with
  | nil => rfl
  | cons a actions ih => exact (ih (act s a)).trans (hact s a)

/-- However the steps of any number of threads are interleaved, a queue of at
least two slots is a bounded FIFO. -/
theorem atomicQueue_isFifo (size : ℕ) (hsize : 2 ≤ size) (aq : FrAtomicQueue α)
    (halloc : frAtomicQueueAlloc α size = some aq) (actions : List (Action τ α)) :
    IsFifo size (run (start aq) actions).log := by
  have hinv : Inv (run (start aq) actions) := (inv_start hsize halloc).run actions
  have hstart : aq.size = size := by
    rw [frAtomicQueueAlloc, if_neg (by omega)] at halloc
    cases halloc
    rfl
  have := hinv.isFifo
  rwa [run_size, start, hstart] at this

/-- The data that the pops of a log have returned. -/
def poppedData (log : List (Event α)) : List (Option α) :=
  log.filterMap fun
    | .popped _ data => some data
    | _ => none

/-- One thread pushes two values, and another one pops the first one while the second one is pushed,
and then the second one. -/
theorem atomicQueue_isFifo_push_pop :
    let log := (run (start ⟨0, 0, 2, fun i => ⟨i, none⟩⟩ : State Bool ℕ)
      (.push true (some 7) :: replicate 5 (.step true) ++ .push true (some 8) :: .pop false ::
        (replicate 5 [.step false, .step true]).flatten ++ .pop false :: replicate 5 (.step false))).log
    IsFifo 2 log ∧ poppedData log = [some 7, some 8] :=
  ⟨atomicQueue_isFifo 2 (by decide) ⟨0, 0, 2, fun i => ⟨i, none⟩⟩ rfl _, rfl⟩

end Fifo

end FreeRadius.AtomicQueue
