import FreeRadius.Message.Model
import FreeRadius.RingBuffer.Blocks

/-!
# Arrays of ring buffers

Every buffer that is listed in the array holds the spans of its messages, and no
other buffer is in memory. The calls on one buffer and the loops over the array
keep that.
-/

namespace FreeRadius.Message

open Library RingBuffer List Function Option

variable {rb : FrRingBuffer} {ms : List MsgPtr} {i : ℕ}

namespace Rings

variable {R R' : Rings} {span : MsgPtr → Span} {a b : Addr} {r : Ring} {size : ℕ}

def held (R : Rings) (a : Addr) : List MsgPtr := (R.ring a).elim [] Ring.held

theorem held_eq (h : R.ring a = some r) : R.held a = r.held := by
  rw [held, h, elim_some]

/-- The array lists the buffers that are in memory, and each of them holds its
messages. There may be gaps in the array. -/
structure WF (R : Rings) (span : MsgPtr → Span) : Prop where
  inj : ∀ i j a, R.array i = some a → R.array j = some a → i = j
  ring_iff : ∀ a, (R.ring a).isSome ↔ ∃ i, R.array i = some a
  fresh : ∀ i a, R.array i = some a → a < R.fresh
  bounded : ∀ i, R.max < i → R.array i = none
  holds : ∀ a r, R.ring a = some r → Holds r.rb (r.held.map span)

theorem wf_single (h : Holds rb []) : (single rb).WF span where
  inj i j a hi hj := by
    simp only [single, update_apply] at hi hj
    split at hi <;> split at hj <;> simp_all
  ring_iff a := by
    simp only [single, update_apply]
    constructor
    · intro ha
      split at ha
      · exact ⟨0, by simp_all⟩
      · simp at ha
    · rintro ⟨i, hi⟩
      split at hi <;> simp_all
  fresh i a hi := by
    simp only [single, update_apply] at hi ⊢
    split at hi <;> simp_all
  bounded i hi := by
    have hpos : i ≠ 0 := Nat.ne_of_gt hi
    simp [single, hpos]
  holds a r hr := by
    simp only [single, update_apply] at hr
    split at hr <;> simp_all
    cases hr
    exact h

section Put

theorem ring_put_self (r : Option Ring) : (R.put a r).ring a = r := by
  simp [put]

theorem ring_put_of_ne (r : Option Ring) (h : b ≠ a) : (R.put a r).ring b = R.ring b := by
  simp [put, h]

theorem held_put_self (r : Option Ring) : (R.put a r).held a = r.elim [] Ring.held := by
  rw [held, ring_put_self]

theorem held_put_of_ne (r : Option Ring) (h : b ≠ a) : (R.put a r).held b = R.held b := by
  rw [held, ring_put_of_ne r h, held]

theorem held_put_same (h : R.ring a = some r) (b : Addr) :
    (R.put a (some ⟨rb, r.held⟩)).held b = R.held b := by
  by_cases hb : b = a
  · rw [hb, held_put_self, held_eq h, elim_some]
  · exact held_put_of_ne _ hb

theorem WF.congr (h : R.WF span) {span' : MsgPtr → Span}
    (hspan : ∀ a, ∀ m ∈ R.held a, span' m = span m) : R.WF span' where
  inj := h.inj
  ring_iff := h.ring_iff
  fresh := h.fresh
  bounded := h.bounded
  holds a r hr := by
    have heq : r.held.map span' = r.held.map span :=
      map_congr_left fun m hm => hspan a m (by rwa [held_eq hr])
    rw [heq]
    exact h.holds a r hr

/-- A buffer that is in memory may be replaced by one that holds its messages. -/
theorem WF.put (h : R.WF span) (ha : R.ring a = some r) (hrb : Holds rb (ms.map span)) :
    (R.put a (some ⟨rb, ms⟩)).WF span where
  inj := h.inj
  ring_iff b := by
    refine Iff.trans ?_ (h.ring_iff b)
    by_cases hb : b = a
    · rw [hb, ring_put_self, ha]
      simp
    · rw [ring_put_of_ne _ hb]
  fresh := h.fresh
  bounded := h.bounded
  holds b r' hr := by
    by_cases hb : b = a
    · rw [hb, ring_put_self] at hr
      cases hr
      exact hrb
    · rw [ring_put_of_ne _ hb] at hr
      exact h.holds b r' hr

theorem WF.set_current (h : R.WF span) (i : ℕ) : { R with current := i }.WF span :=
  { h with }

end Put

section Calls

theorem WF.offset_le (h : R.WF span) (ha : R.ring a = some r) : r.rb.writeOffset ≤ 2 ^ 30 :=
  (h.holds a r ha).write_le.trans (h.holds a r ha).size_le

theorem WF.fits (h : R.WF span) (ha : R.ring a = some r) (hsize : size ≤ 2 ^ 63) :
    r.rb.writeOffset + size < 2 ^ 64 := by
  have := h.offset_le ha
  omega

variable {owner : ℕ → MsgPtr} {m : MsgPtr}

section

variable (h : R.WF span)

include h

theorem WF.alloc_ok {offset : ℕ} (hsize : size ≤ 2 ^ 63)
    (halloc : R.alloc a size owner = some (R', .ok offset)) :
    R'.held a = R.held a ++ [owner offset] ∧ (∀ b, b ≠ a → R'.held b = R.held b) ∧
    (R.ring a).isSome ∧
    (∀ m ∈ R.held a, ¬(span m).Overlap ⟨offset, size⟩) ∧
    ∀ span' : MsgPtr → Span, (∀ b, ∀ m ∈ R.held b, span' m = span m) →
      span' (owner offset) = ⟨offset, size⟩ → R'.WF span' := by
  obtain ⟨r, ha, halloc⟩ := bind_eq_some_iff.mp halloc
  rcases (h.holds a r ha).alloc (h.fits ha hsize) with ⟨rb, off, heq, hrb⟩ | ⟨rb, heq, hrb⟩
  · rw [heq] at halloc
    cases halloc
    refine ⟨?_, fun b hb => held_put_of_ne _ hb, ?_, fun m hm => ?_, fun span' hspan hnew => ?_⟩
    · rw [held_put_self, held_eq ha, elim_some]
    · rw [ha, isSome_some]
    · have happ := pairwise_append.mp hrb.apart
      rw [held_eq ha] at hm
      exact happ.2.2 _ (mem_map_of_mem hm) _ (mem_singleton.mpr rfl)
    · refine (h.congr hspan).put ha ?_
      have hmap : r.held.map span' = r.held.map span :=
        map_congr_left fun m hm => hspan a m (by rwa [held_eq ha])
      rw [map_append, hmap, map_singleton, hnew]
      exact hrb
  · rw [heq] at halloc
    cases halloc

theorem WF.alloc_error {e : RingError} (hsize : size ≤ 2 ^ 63)
    (halloc : R.alloc a size owner = some (R', .error e)) :
    R'.WF span ∧ ∀ b, R'.held b = R.held b := by
  obtain ⟨r, ha, halloc⟩ := bind_eq_some_iff.mp halloc
  rcases (h.holds a r ha).alloc (h.fits ha hsize) with ⟨rb, off, heq, hrb⟩ | ⟨rb, heq, hrb⟩
  · rw [heq] at halloc
    cases halloc
  · rw [heq] at halloc
    cases halloc
    exact ⟨h.put ha hrb, held_put_same ha⟩

/-- What there is room for at the write offset is allocated there. -/
theorem WF.alloc_ready {result : Except RingError ℕ} (ha : R.ring a = some r)
    (hready : Ready r.rb size) (halloc : R.alloc a size owner = some (R', result)) :
    result = .ok r.rb.writeOffset ∧
      ∃ r', R'.ring a = some r' ∧ ∀ n, Room r.rb size n → Room r'.rb 0 n := by
  obtain ⟨rb, heq, hroom⟩ := (h.holds a r ha).alloc_ready hready
  rw [alloc, ha, Option.bind_eq_bind, bind_some, heq] at halloc
  cases halloc
  exact ⟨rfl, _, ring_put_self _, hroom⟩

/-- A reservation changes nothing of what the buffers hold, and is apart from it. -/
theorem WF.reserve {result : Except RingError ℕ} (hsize : size ≤ 2 ^ 63)
    (hreserve : R.reserve a size = some (R', result)) :
    R'.WF span ∧ (∀ b, R'.held b = R.held b) ∧
      (∀ r, R.ring a = some r → Room r.rb 0 size → ∃ offset, result = .ok offset) ∧
      ∀ offset, result = .ok offset → (∀ m ∈ R.held a, ¬(span m).Overlap ⟨offset, size⟩) ∧
        ∃ r', R'.ring a = some r' ∧ r'.rb.writeOffset = offset ∧ Ready r'.rb size := by
  obtain ⟨r, ha, hreserve⟩ := bind_eq_some_iff.mp hreserve
  rcases (h.holds a r ha).reserve (h.fits ha hsize) with ⟨rb, heq, hrb, hready, hapart⟩ |
    ⟨heq, hfull⟩
  · rw [heq] at hreserve
    cases hreserve
    refine ⟨h.put ha hrb, held_put_same ha, fun _ _ _ => ⟨_, rfl⟩, fun offset hoff => ?_⟩
    cases hoff
    refine ⟨fun m hm => ?_, _, ring_put_self _, rfl, hready⟩
    rw [held_eq ha] at hm
    exact hapart _ (mem_map_of_mem hm)
  · rw [heq] at hreserve
    cases hreserve
    refine ⟨h.put ha (h.holds a r ha), held_put_same ha, fun r' hr' hroom => ?_, fun _ hoff =>
      nomatch hoff⟩
    cases ha.symm.trans hr'
    exact absurd hroom hfull

/-- No two messages in a buffer have a byte in common. -/
theorem WF.apart (a : Addr) : (R.held a).Pairwise fun m n => ¬(span m).Overlap (span n) := by
  cases ha : R.ring a with
  | none => simp [held, ha]
  | some r =>
    rw [held_eq ha]
    exact pairwise_map.mp (h.holds a r ha).apart

theorem WF.apart_of_ne {n : MsgPtr} (hm : m ∈ R.held a) (hn : n ∈ R.held a) (hne : m ≠ n) :
    ¬(span m).Overlap (span n) :=
  have : Std.Symm fun m n => ¬(span m).Overlap (span n) := ⟨fun _ _ hapart hover => hapart hover.symm⟩
  (h.apart a).forall hm hn hne

theorem WF.nodup (hpos : ∀ a, ∀ m ∈ R.held a, 0 < (span m).size) (a : Addr) : (R.held a).Nodup := by
  refine Pairwise.imp_of_mem (fun {m n} hm _ hapart heq => hapart ?_) (h.apart a)
  have := hpos a m hm
  rw [← heq]
  exact ⟨(span m).offset, ⟨le_rfl, by omega⟩, ⟨le_rfl, by omega⟩⟩

/-- Freeing as many bytes as the oldest message has frees that message. Where there
was room, there still is, unless the buffer is empty now. -/
theorem WF.free (hpos : ∀ a, ∀ m ∈ R.held a, 0 < (span m).size)
    (honly : ∀ b, m ∈ R.held b → b = a) (hheld : R.held a = m :: ms) (hsize : size = (span m).size)
    {result : Except RingError Unit} (hfree : R.free a size = some (R', result)) :
    result = .ok () ∧ R'.WF span ∧ (∀ b, R'.held b = (R.held b).filter (· ≠ m)) ∧
      ∀ b r n, R.ring b = some r → (∃ x ∈ r.held, x ≠ m) → Room r.rb 0 n →
        ∃ r', R'.ring b = some r' ∧ Room r'.rb 0 n := by
  have hnodup := h.nodup hpos a
  rw [hheld, nodup_cons] at hnodup
  obtain ⟨r, ha, hfree⟩ := bind_eq_some_iff.mp hfree
  have hheld' := hheld
  rw [held_eq ha] at hheld'
  have hholds := h.holds a r ha
  rw [hheld', map_cons] at hholds
  obtain ⟨rb, heq, hrb, hroom⟩ := hholds.free
  rw [hsize, heq, hheld'] at hfree
  cases hfree
  refine ⟨rfl, h.put ha hrb, fun b => ?_, fun b r' n hr' hx hn => ?_⟩
  · by_cases hb : b = a
    · rw [hb, held_put_self, hheld, filter_cons_of_neg (by simp)]
      refine (filter_eq_self.mpr fun x hx => decide_eq_true ?_).symm
      rintro rfl
      exact hnodup.1 hx
    · rw [held_put_of_ne _ hb]
      refine (filter_eq_self.mpr fun x hx => decide_eq_true ?_).symm
      rintro rfl
      exact hb (honly b hx)
  · by_cases hb : b = a
    · subst hb
      cases ha.symm.trans hr'
      obtain ⟨x, hx, hne⟩ := hx
      rw [hheld'] at hx
      have hx := (mem_cons.mp hx).resolve_left hne
      refine ⟨_, ring_put_self _, hroom (Nat.lt_of_lt_of_le (hpos b x ?_) ?_) n hn⟩
      · rw [hheld]
        exact mem_cons_of_mem m hx
      · exact single_le_sum (fun _ _ => Nat.zero_le _) _ (mem_map_of_mem (mem_map_of_mem hx))
    · exact ⟨r', (ring_put_of_ne _ hb).trans hr', hn⟩

theorem WF.used (ha : R.ring a = some r) :
    frRingBufferUsed r.rb = (r.held.map fun m => (span m).size).sum := by
  rw [(h.holds a r ha).used]
  have : ∀ ms : List MsgPtr, total (ms.map span) = (ms.map fun m => (span m).size).sum := by
    intro ms
    induction ms with
    | nil => rfl
    | cons m ms ih => simp [ih]
  exact this r.held

end

end Calls

section Coalesce

theorem WF.held_eq_nil (h : R.WF span) (hpos : ∀ m ∈ R.held a, 0 < (span m).size)
    (ha : R.ring a = some r) (hused : frRingBufferUsed r.rb = 0) : R.held a = [] := by
  rw [held_eq ha] at hpos ⊢
  rw [h.used ha] at hused
  cases hheld : r.held with
  | nil => rfl
  | cons m ms =>
    have := hpos m (by rw [hheld]; exact mem_cons_self)
    rw [hheld, map_cons, sum_cons] at hused
    omega

theorem WF.drop (h : R.WF span) (hi : R.array i = some a) :
    { R.put a none with array := Function.update R.array i none }.WF span where
  inj j k b hj hk := by
    simp only [update_apply] at hj hk
    split at hj
    · cases hj
    · split at hk
      · cases hk
      · exact h.inj j k b hj hk
  ring_iff b := by
    simp only [Rings.put, update_apply]
    by_cases hb : b = a
    · subst hb
      simp only [if_true, isSome_none, Bool.false_eq_true, false_iff, not_exists]
      intro j hj
      split at hj
      · cases hj
      · rename_i hne
        exact hne (h.inj j i b hj hi)
    · rw [if_neg hb, h.ring_iff b]
      refine exists_congr fun j => ?_
      split
      · rename_i hj
        rw [hj, hi]
        simp [Ne.symm hb]
      · rfl
  fresh j b hj := by
    simp only [update_apply] at hj
    split at hj
    · cases hj
    · exact h.fresh j b hj
  bounded j hj := by
    simp only [update_apply]
    split
    · rfl
    · exact h.bounded j hj
  holds b r hr := by
    simp only [Rings.put, update_apply] at hr
    split at hr
    · cases hr
    · exact h.holds b r hr

/-- What the loop that frees empty buffers keeps. -/
structure Freed (R R' : Rings) (span : MsgPtr → Span) (freed : ℕ) : Prop where
  sparse : R'.WF span
  held : ∀ a, R'.held a = R.held a
  max : R'.max = R.max
  current : R'.current = R.current
  count : (entries (R.max + 1) R'.array).length + freed = (entries (R.max + 1) R.array).length
  none : freed = 0 → R' = R
  ring : ∀ a, R.held a ≠ [] → R'.ring a = R.ring a

theorem WF.freeEmpty (h : R.WF span) (hpos : ∀ a, ∀ m ∈ R.held a, 0 < (span m).size)
    {ndebug : Bool} {arraysUsed freed : ℕ} (hi : i ≤ R.max + 1)
    (hfree : R.freeEmpty ndebug i arraysUsed = some (R', freed)) : Freed R R' span freed := by
  induction i generalizing R arraysUsed freed with
  | zero =>
    cases hfree
    exact ⟨h, fun _ => rfl, rfl, rfl, rfl, fun _ => rfl, fun _ _ => rfl⟩
  | succ i ih =>
    obtain ⟨-, -, hfree⟩ := bind_eq_some_iff.mp hfree
    split at hfree
    · exact ih h hpos (by omega) hfree
    obtain ⟨a, hslot, hfree⟩ := bind_eq_some_iff.mp hfree
    obtain ⟨r, ha, hfree⟩ := bind_eq_some_iff.mp hfree
    split at hfree
    · rename_i hused
      obtain ⟨⟨R₁, n⟩, hrec, hres⟩ := bind_eq_some_iff.mp hfree
      cases hres
      have hnil := h.held_eq_nil (hpos a) ha hused
      have hheld : ∀ b, (R.put a none).held b = R.held b := by
        intro b
        by_cases hb : b = a
        · rw [hb, held_put_self, hnil, elim_none]
        · exact held_put_of_ne _ hb
      have hrec := ih (h.drop hslot) (fun b m hm => hpos b m (by
        rw [← hheld b]; exact hm)) (by simp only [Rings.put]; omega) hrec
      refine ⟨hrec.sparse, fun b => (hrec.held b).trans (hheld b), hrec.max, hrec.current, ?_,
        fun h0 => absurd h0 (Nat.succ_ne_zero n), fun b hb => ?_⟩
      · have hcount := hrec.count
        have hone := length_entries_update hslot (show i < R.max + 1 by omega)
        simp only [Rings.put] at hcount
        omega
      · refine (hrec.ring b ((hheld b).trans_ne hb)).trans (ring_put_of_ne _ ?_)
        rintro rfl
        exact hb hnil
    · exact ih h hpos (by omega) hfree

/-- Freeing empty buffers and packing the array keeps what the buffers hold. -/
theorem WF.coalesce (h : R.WF span) (hpos : ∀ a, ∀ m ∈ R.held a, 0 < (span m).size)
    {ndebug : Bool} (hcoalesce : R.coalesce ndebug = some R') :
    R'.WF span ∧ (∀ a, R'.held a = R.held a) ∧ ∀ a, R.held a ≠ [] → R'.ring a = R.ring a := by
  rw [Rings.coalesce] at hcoalesce
  obtain ⟨⟨R₁, freed⟩, hfree, hpack⟩ := bind_eq_some_iff.mp hcoalesce
  have hfreed := h.freeEmpty hpos le_rfl hfree
  dsimp only at hpack
  split at hpack
  · rename_i hzero
    cases hpack
    rw [hfreed.none hzero]
    exact ⟨h, fun _ => rfl, fun _ _ => rfl⟩
  · obtain ⟨-, -, hpack⟩ := bind_eq_some_iff.mp hpack
    cases hpack
    refine ⟨?_, hfreed.held, hfreed.ring⟩
    have hs := hfreed.sparse
    have hslots : ∀ i, pack (R₁.max + 1) R₁.array i = (entries (R₁.max + 1) R₁.array)[i]? :=
      pack_apply fun i hi => hs.bounded i (by omega)
    have hnodup : (entries (R₁.max + 1) R₁.array).Nodup :=
      List.Nodup.filterMap (fun i j a => hs.inj i j a) List.nodup_range
    have hmem : ∀ a, (∃ i, pack (R₁.max + 1) R₁.array i = some a) ↔ ∃ i, R₁.array i = some a := by
      intro a
      simp only [hslots, ← mem_iff_getElem?, mem_entries]
      refine exists_congr fun i => and_iff_right_of_imp fun hi => ?_
      by_contra hlt
      rw [hs.bounded i (by omega)] at hi
      cases hi
    exact
      { inj := fun i j a hi hj => by
          dsimp only at hi hj
          rw [hslots] at hi hj
          obtain ⟨hlt, -⟩ := List.getElem?_eq_some_iff.mp hi
          exact (getElem?_inj hlt hnodup).mp (hi.trans hj.symm)
        ring_iff := fun a => (hs.ring_iff a).trans (hmem a).symm
        fresh := fun i a hi => by
          obtain ⟨j, hj⟩ := (hmem a).mp ⟨i, hi⟩
          exact hs.fresh j a hj
        bounded := fun i hi => by
          dsimp only at hi ⊢
          have hcount := hfreed.count
          rw [← hfreed.max] at hcount
          have hle := length_entries_le (R₁.max + 1) R.array
          rw [hslots]
          exact getElem?_eq_none (by omega)
        holds := hs.holds }

theorem WF.double (h : R.WF span) (hdouble : R.double = some (.ok R')) :
    R'.WF span ∧ ∀ a, R'.held a = R.held a := by
  rw [Rings.double] at hdouble
  obtain ⟨last, -, hdouble⟩ := bind_eq_some_iff.mp hdouble
  obtain ⟨r, -, hdouble⟩ := bind_eq_some_iff.mp hdouble
  split at hdouble
  · cases hdouble
  rename_i rb hcreate
  cases hdouble
  have hnew : R.ring R.fresh = none := by
    by_contra hsome
    obtain ⟨i, hi⟩ := (h.ring_iff R.fresh).mp (isSome_iff_ne_none.mpr hsome)
    exact lt_irrefl _ (h.fresh i _ hi)
  have hlt : ∀ i a, R.array i = some a → a ≠ R.fresh := fun i a hi =>
    Nat.ne_of_lt (h.fresh i a hi)
  refine ⟨?_, fun a => ?_⟩
  · exact
      { inj := fun i j a hi hj => by
          simp only [update_apply] at hi hj
          split at hi <;> split at hj
          · omega
          · cases hi
            exact absurd rfl (hlt j _ hj)
          · cases hj
            exact absurd rfl (hlt i _ hi)
          · exact h.inj i j a hi hj
        ring_iff := fun a => by
          simp only [update_apply]
          by_cases ha : a = R.fresh
          · subst ha
            simp only [if_true, isSome_some, true_iff]
            exact ⟨R.max + 1, by rw [if_pos rfl]⟩
          rw [if_neg ha, h.ring_iff a]
          constructor
          · rintro ⟨i, hi⟩
            refine ⟨i, ?_⟩
            rw [if_neg, hi]
            rintro rfl
            rw [h.bounded _ (Nat.lt_succ_self _)] at hi
            cases hi
          · rintro ⟨i, hi⟩
            split at hi
            · cases hi
              exact absurd rfl ha
            · exact ⟨i, hi⟩
        fresh := fun i a hi => by
          simp only [update_apply] at hi
          split at hi
          · cases hi
            exact Nat.lt_succ_self _
          · exact (h.fresh i a hi).trans (Nat.lt_succ_self _)
        bounded := fun i hi => by
          simp only [update_apply]
          dsimp only at hi
          rw [if_neg (by omega)]
          exact h.bounded i (by omega)
        holds := fun a r hr => by
          simp only [update_apply] at hr
          split at hr
          · cases hr
            exact holds_create hcreate
          · exact h.holds a r hr }
  · rw [held, held]
    simp only [update_apply]
    split
    · rename_i ha
      rw [ha, hnew]
      rfl
    · rfl

end Coalesce

end Rings

end FreeRadius.Message
