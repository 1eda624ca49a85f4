import FreeRadius.Message.Rings

/-!
# Collecting messages

The invariant of a message set, and what the garbage collection keeps of it: every
message that it cleans is the oldest one in its ring buffer, and the messages in
use stay as they are.
-/

namespace FreeRadius.Message

open Library RingBuffer Option

variable {ms ms' ms₁ ms₂ : FrMessageSet} {m x : MsgPtr} {a mr : Addr} {E : Set MsgPtr}
  {rest : List MsgPtr}

/-- The bytes of the header, in the ring buffer `m.1`. -/
def FrMessageSet.header (ms : FrMessageSet) (m : MsgPtr) : Span := ⟨m.2, ms.messageSize⟩

/-- The bytes of the data, in the ring buffer `(ms.msg m).rb`. -/
def FrMessageSet.block (ms : FrMessageSet) (m : MsgPtr) : Span :=
  ⟨(ms.msg m).data.getD 0, (ms.msg m).rbSize⟩

variable {E' : Set MsgPtr} {maxToClean : ℕ}

section Invariant

/-- What is known of a message in front of another one in a ring buffer: in a common
message ring it is in front as well, and only in a common one is the other done. -/
def InFront (ms : FrMessageSet) (n m : MsgPtr) : Prop :=
  (n.1 = m.1 → [n, m].Sublist (ms.mr.held m.1)) ∧ ((ms.msg m).status = .done → n.1 = m.1)

/-- A message has its data in a ring buffer as long as it has its header in a
message ring, and both arrays hold what they should hold. -/
structure Good (ms : FrMessageSet) : Prop where
  size_pos : 0 < ms.messageSize
  size_le : ms.messageSize ≤ 2 ^ 63
  max_le : ms.maxAllocation ≤ 2 ^ 62
  notFailed : ms.failed = false
  mr : ms.mr.WF ms.header
  rb : ms.rb.WF ms.block
  head : ∀ a, ∀ m ∈ ms.mr.held a, m.1 = a
  used : ∀ m, (ms.msg m).status = .used → m ∈ ms.mr.held m.1
  stored : ∀ a, ∀ m ∈ ms.rb.held a,
    m ∈ ms.mr.held m.1 ∧ (ms.msg m).rb = some a ∧ 0 < (ms.msg m).rbSize
  done : ∀ m, (ms.msg m).status = .done → ∀ a, (ms.msg m).rb = some a → m ∈ ms.rb.held a
  order : ∀ a, (ms.rb.held a).Pairwise (InFront ms)

section

variable (h : Good ms)

include h

theorem Good.header_pos : ∀ a, ∀ m ∈ ms.mr.held a, 0 < (ms.header m).size :=
  fun _ _ _ => h.size_pos

theorem Good.block_pos : ∀ a, ∀ m ∈ ms.rb.held a, 0 < (ms.block m).size :=
  fun a m hm => (h.stored a m hm).2.2

/-- The oldest message in a message ring is the oldest one in its ring buffer when
it is done. -/
theorem Good.oldest (hheld : ms.mr.held mr = m :: rest) (hdone : (ms.msg m).status = .done)
    (hm : m ∈ ms.rb.held a) : ∃ rest, ms.rb.held a = m :: rest := by
  obtain ⟨front, back, hsplit⟩ := List.append_of_mem hm
  cases front with
  | nil => exact ⟨back, hsplit⟩
  | cons n front =>
    have horder := h.order a
    rw [hsplit, List.cons_append] at horder
    have hfront : InFront ms n m := (List.pairwise_cons.mp horder).1 m (by simp)
    have hsub := hfront.1 (hfront.2 hdone)
    have hnodup := h.mr.nodup h.header_pos mr
    rw [h.head mr m (by rw [hheld]; exact List.mem_cons_self), hheld] at hsub
    rw [hheld, List.nodup_cons] at hnodup
    exact absurd (hsub.tail.subset (List.mem_singleton.mpr rfl)) hnodup.1

end

/-- What a function leaves as it is: the messages in use, apart from some, their
data, and the order of their headers. -/
structure Frame (E : Set MsgPtr) (ms ms' : FrMessageSet) : Prop where
  ndebug : ms'.ndebug = ms.ndebug
  size : ms'.messageSize = ms.messageSize
  max : ms'.maxAllocation = ms.maxAllocation
  msg : ∀ x ∉ E, (ms.msg x).status = .used → ms'.msg x = ms.msg x
  kept : ∀ a, ∀ x ∉ E, (ms.msg x).status = .used → x ∈ ms.rb.held a → x ∈ ms'.rb.held a
  fewer : ∀ a, ∀ x ∉ E, x ∈ ms'.rb.held a → x ∈ ms.rb.held a
  order : ∀ a, ∀ x ∉ E, ∀ m ∉ E, x ∈ ms'.rb.held a → (ms.msg m).status = .used →
    [x, m].Sublist (ms.mr.held m.1) → [x, m].Sublist (ms'.mr.held m.1)

theorem Frame.mono (h : Frame E ms ms') (hE : E ⊆ E') : Frame E' ms ms' where
  ndebug := h.ndebug
  size := h.size
  max := h.max
  msg x hx := h.msg x fun hmem => hx (hE hmem)
  kept a x hx := h.kept a x fun hmem => hx (hE hmem)
  fewer a x hx := h.fewer a x fun hmem => hx (hE hmem)
  order a x hx m hm := h.order a x (fun hmem => hx (hE hmem)) m fun hmem => hm (hE hmem)

/-- The invariant and the frame of a step. -/
structure Keeps (E : Set MsgPtr) (ms ms' : FrMessageSet) : Prop extends Frame E ms ms' where
  good : Good ms'

theorem Keeps.refl (E : Set MsgPtr) (h : Good ms) : Keeps E ms ms :=
  ⟨⟨rfl, rfl, rfl, fun _ _ _ => rfl, fun _ _ _ _ h => h, fun _ _ _ h => h,
    fun _ _ _ _ _ _ _ h => h⟩, h⟩

theorem Keeps.trans (h₁ : Keeps E ms ms₁) (h₂ : Keeps E ms₁ ms₂) : Keeps E ms ms₂ := by
  have hused : ∀ x ∉ E, (ms.msg x).status = .used → (ms₁.msg x).status = .used := by
    intro x hx hused
    rwa [h₁.msg x hx hused]
  exact
    { ndebug := h₂.ndebug.trans h₁.ndebug
      size := h₂.size.trans h₁.size
      max := h₂.max.trans h₁.max
      msg := fun x hx h => (h₂.msg x hx (hused x hx h)).trans (h₁.msg x hx h)
      kept := fun a x hx h hheld => h₂.kept a x hx (hused x hx h) (h₁.kept a x hx h hheld)
      fewer := fun a x hx hheld => h₁.fewer a x hx (h₂.fewer a x hx hheld)
      order := fun a x hx m hm hheld h hsub => h₂.order a x hx m hm hheld (hused m hm h)
        (h₁.order a x hx m hm (h₂.fewer a x hx hheld) h hsub)
      good := h₂.good }

theorem Keeps.mono (h : Keeps E ms ms') (hE : E ⊆ E') : Keeps E' ms ms' :=
  ⟨h.toFrame.mono hE, h.good⟩

/-- A step that needs no data leaves the room in the ring buffers that are in use. -/
structure Collects (ms ms' : FrMessageSet) : Prop extends Keeps ∅ ms ms' where
  room : ∀ a r n, ms.rb.ring a = some r → (∃ x ∈ r.held, (ms.msg x).status = .used) →
    Room r.rb 0 n → ∃ r', ms'.rb.ring a = some r' ∧ Room r'.rb 0 n

theorem Collects.refl (h : Good ms) : Collects ms ms :=
  ⟨Keeps.refl ∅ h, fun _ r _ hr _ hroom => ⟨r, hr, hroom⟩⟩

theorem Collects.trans (h₁ : Collects ms ms₁) (h₂ : Collects ms₁ ms₂) : Collects ms ms₂ := by
  refine ⟨h₁.toKeeps.trans h₂.toKeeps, fun a r n hr ⟨x, hx, hused⟩ hroom => ?_⟩
  obtain ⟨r₁, hr₁, hroom₁⟩ := h₁.room a r n hr ⟨x, hx, hused⟩ hroom
  refine h₂.room a r₁ n hr₁ ⟨x, ?_, ?_⟩ hroom₁
  · rw [← Rings.held_eq hr₁]
    exact h₁.kept a x (Set.notMem_empty x) hused (by rwa [Rings.held_eq hr])
  · rwa [h₁.msg x (Set.notMem_empty x) hused]

end Invariant

section Clean

/-- The message has no data any more. -/
structure DataFreed (ms : FrMessageSet) (m : MsgPtr) (rb : Rings) (msg : MsgPtr → FrMessage) :
    Prop where
  free : (msg m).status = .free
  msg : ∀ x, x ≠ m → msg x = ms.msg x
  wf : rb.WF ms.block
  held : ∀ a, rb.held a = (ms.rb.held a).filter (· ≠ m)
  room : ∀ a r n, ms.rb.ring a = some r → (∃ x ∈ r.held, x ≠ m) → Room r.rb 0 n →
    ∃ r', rb.ring a = some r' ∧ Room r'.rb 0 n

@[simp] theorem FrMessageSet.setMsg_self (ms : FrMessageSet) (m : MsgPtr) (msg : FrMessage) :
    (ms.setMsg m msg).msg m = msg := by
  simp [setMsg]

theorem FrMessageSet.setMsg_of_ne (ms : FrMessageSet) (msg : FrMessage) (h : x ≠ m) :
    (ms.setMsg m msg).msg x = ms.msg x := by
  simp [setMsg, h]

theorem block_congr (h : ms'.msg x = ms.msg x) : ms'.block x = ms.block x := by
  rw [FrMessageSet.block, FrMessageSet.block, h]

theorem freeData_spec (hgood : Good ms) (hheld : ms.mr.held mr = m :: rest)
    (hdone : (ms.msg m).status = .done) (h : freeData ms m = some ms') :
    ∃ rb msg, ms' = { ms with rb := rb, msg := msg } ∧ DataFreed ms m rb msg := by
  rw [freeData] at h
  dsimp only at h
  split at h
  · -- a bare message is in no ring buffer
    rename_i hrb
    cases h
    refine ⟨_, _, rfl, ?_, fun x hx => ms.setMsg_of_ne _ hx, hgood.rb, fun a => ?_,
      fun _ r _ hr _ hroom => ⟨r, hr, hroom⟩⟩
    · rw [Function.update_self]
    · refine (List.filter_eq_self.mpr fun x hx => decide_eq_true ?_).symm
      rintro rfl
      rw [(hgood.stored a x hx).2.1] at hrb
      cases hrb
  rename_i a hrb
  obtain ⟨⟨rings, result⟩, hfree, h⟩ := bind_eq_some_iff.mp h
  obtain ⟨back, hback⟩ := hgood.oldest hheld hdone (hgood.done m hdone a hrb)
  obtain ⟨rfl, hwf, hother, hroom⟩ := hgood.rb.free hgood.block_pos
    (fun b hb => some.inj ((hgood.stored b m hb).2.1.symm.trans hrb)) hback rfl hfree
  simp only [Except.isOk, Except.toBool, Bool.not_true, Bool.or_false] at h
  cases h
  refine ⟨_, _, rfl, ?_, fun x hx => ms.setMsg_of_ne _ hx, hwf, hother, hroom⟩
  rw [ms.setMsg_self]
  split <;> rfl

theorem sublist_filter_ne {l : List MsgPtr} {n : MsgPtr} (h : [n, x].Sublist l) (hn : n ≠ m)
    (hx : x ≠ m) : [n, x].Sublist (l.filter (· ≠ m)) := by
  simpa [hn, hx] using h.filter (· ≠ m)

/-- The oldest header, and the data of its message, are freed. -/
theorem clean_collects (hgood : Good ms) (hheld : ms.mr.held mr = m :: rest)
    (hdone : (ms.msg m).status = .done) {rb rings : Rings} {msg : MsgPtr → FrMessage}
    (hdata : DataFreed ms m rb msg) {result : Except RingError Unit}
    (hfree : ms.mr.free mr ms.messageSize = some (rings, result)) :
    Collects ms { ms with mr := rings, rb := rb, msg := msg } := by
  have hring : m.1 = mr := hgood.head mr m (by rw [hheld]; exact List.mem_cons_self)
  obtain ⟨-, hwf, hrings, -⟩ := hgood.mr.free hgood.header_pos
    (fun b hb => (hgood.head b m hb).symm.trans hring) hheld rfl hfree
  have hmr : ∀ b x, x ∈ rings.held b ↔ x ∈ ms.mr.held b ∧ x ≠ m := by
    simp [hrings]
  have hrb : ∀ b x, x ∈ rb.held b ↔ x ∈ ms.rb.held b ∧ x ≠ m := by
    simp [hdata.held]
  have hsub : ∀ b n x, n ≠ m → x ≠ m → [n, x].Sublist (ms.mr.held b) →
      [n, x].Sublist (rings.held b) := by
    intro b n x hn hx h
    rw [hrings]
    exact sublist_filter_ne h hn hx
  have hused : ∀ x, (ms.msg x).status = .used → x ≠ m := by
    rintro x hx rfl
    rw [hdone] at hx
    cases hx
  have hmsg : ∀ x, (msg x).status ≠ .free → x ≠ m := by
    rintro x hx rfl
    exact hx hdata.free
  have hgood' : Good { ms with mr := rings, rb := rb, msg := msg } :=
    { size_pos := hgood.size_pos
      size_le := hgood.size_le
      max_le := hgood.max_le
      notFailed := hgood.notFailed
      mr := hwf
      rb := hdata.wf.congr fun b x hx => block_congr (hdata.msg x ((hrb b x).mp hx).2)
      head := fun b x hx => hgood.head b x ((hmr b x).mp hx).1
      used := fun x hx => by
        dsimp only at hx
        have hne := hmsg x (by rw [hx]; exact fun h => nomatch h)
        rw [hdata.msg x hne] at hx
        exact (hmr x.1 x).mpr ⟨hgood.used x hx, hne⟩
      stored := fun b x hx => by
        obtain ⟨hx, hne⟩ := (hrb b x).mp hx
        dsimp only
        rw [hdata.msg x hne]
        obtain ⟨hhead, hrest⟩ := hgood.stored b x hx
        exact ⟨(hmr x.1 x).mpr ⟨hhead, hne⟩, hrest⟩
      done := fun x hx b hb => by
        dsimp only at hx hb
        have hne := hmsg x (by rw [hx]; exact fun h => nomatch h)
        rw [hdata.msg x hne] at hx hb
        exact (hrb b x).mpr ⟨hgood.done x hx b hb, hne⟩
      order := fun b => by
        have hfilter := (hgood.order b).filter (· ≠ m)
        rw [← hdata.held] at hfilter
        refine hfilter.imp_of_mem fun {n x} hn hx hfront => ⟨fun heq => ?_, fun h => ?_⟩
        · exact hsub x.1 n x ((hrb b n).mp hn).2 ((hrb b x).mp hx).2 (hfront.1 heq)
        · dsimp only at h
          rw [hdata.msg x ((hrb b x).mp hx).2] at h
          exact hfront.2 h }
  refine ⟨⟨⟨rfl, rfl, rfl, fun x _ hx => hdata.msg x (hused x hx),
    fun b x _ hx hmem => (hrb b x).mpr ⟨hmem, hused x hx⟩, fun b x _ hx => ((hrb b x).mp hx).1,
    fun b n _ x _ hn hx => hsub x.1 n x ((hrb b n).mp hn).2 (hused x hx)⟩, hgood'⟩, ?_⟩
  rintro b r n hr ⟨x, hx, hx'⟩
  exact hdata.room b r n hr ⟨x, hx, hused x hx'⟩

/-- The message at the start of a message ring is the oldest one. -/
theorem oldest_of_start (hgood : Good ms) {r : Ring} (hr : ms.mr.ring mr = some r)
    (hsize : (frRingBufferStart r.rb).2 ≠ 0) :
    ∃ rest, ms.mr.held mr = (mr, (frRingBufferStart r.rb).1) :: rest := by
  obtain ⟨b, rest, hlive, hoff⟩ := (hgood.mr.holds mr r hr).start hsize
  obtain ⟨m, held, hheld, rfl, rfl⟩ := List.map_eq_cons_iff.mp hlive
  have hoffset : m.2 = r.rb.dataStart := hoff.resolve_left (Nat.ne_of_gt hgood.size_pos)
  rw [Rings.held_eq hr, hheld]
  have hm : m.1 = mr :=
    hgood.head mr m (by rw [Rings.held_eq hr, hheld]; exact List.mem_cons_self)
  refine ⟨held, ?_⟩
  rw [frRingBufferStart, ← hoffset, ← hm]

theorem frMessageRingGc_collects (hgood : Good ms) {cleaned : ℕ}
    (h : frMessageRingGc ms mr maxToClean = some (ms', cleaned)) : Collects ms ms' := by
  induction maxToClean generalizing ms cleaned with
  | zero =>
    cases h
    exact Collects.refl hgood
  | succ n ih =>
    rw [frMessageRingGc] at h
    obtain ⟨r, hr, h⟩ := bind_eq_some_iff.mp h
    dsimp only at h
    split at h
    · cases h
      exact Collects.refl hgood
    rename_i hsize
    obtain ⟨-, -, h⟩ := bind_eq_some_iff.mp h
    split at h
    · cases h
      exact Collects.refl hgood
    rename_i hdone
    obtain ⟨ms₁, hfreed, h⟩ := bind_eq_some_iff.mp h
    obtain ⟨rest, hheld⟩ := oldest_of_start hgood hr hsize
    obtain ⟨rb, msg, rfl, hdata⟩ := freeData_spec hgood hheld (not_not.mp hdone) hfreed
    obtain ⟨⟨rings, result⟩, hfree, h⟩ := bind_eq_some_iff.mp h
    obtain ⟨⟨ms₂, n'⟩, hrec, h⟩ := bind_eq_some_iff.mp h
    cases h
    have hclean := clean_collects hgood hheld (not_not.mp hdone) hdata hfree
    exact hclean.trans (ih hclean.good hrec)

end Clean

section Gc

theorem sweep_collects (hgood : Good ms) {is : List ℕ} {total res : ℕ}
    (h : sweep ms maxToClean is total = some (ms', res)) : Collects ms ms' := by
  induction is generalizing ms total with
  | nil =>
    cases h
    exact Collects.refl hgood
  | cons i is ih =>
    rw [sweep] at h
    obtain ⟨mr, -, h⟩ := bind_eq_some_iff.mp h
    obtain ⟨⟨ms₁, cleaned⟩, hgc, h⟩ := bind_eq_some_iff.mp h
    have hring := frMessageRingGc_collects hgood hgc
    dsimp only at h
    split at h
    · cases h
      exact hring
    · exact hring.trans (ih hring.good h)

/-- The arrays may be replaced by ones that hold the same messages. -/
theorem Good.replace (h : Good ms) {mr rb : Rings} (hmr : mr.WF ms.header) (hrb : rb.WF ms.block)
    (hmrHeld : mr.held = ms.mr.held) (hrbHeld : rb.held = ms.rb.held) :
    Keeps ∅ ms { ms with mr := mr, rb := rb } := by
  refine ⟨⟨rfl, rfl, rfl, fun _ _ _ => rfl, ?_, ?_, ?_⟩, ⟨h.size_pos, h.size_le, h.max_le,
    h.notFailed, hmr, hrb, ?_, ?_, ?_, ?_, ?_⟩⟩
  all_goals dsimp only
  all_goals try rw [hmrHeld]
  all_goals try rw [hrbHeld]
  · exact fun _ _ _ _ hx => hx
  · exact fun _ _ _ hx => hx
  · exact fun _ _ _ _ _ _ _ hsub => hsub
  · exact h.head
  · exact h.used
  · exact h.stored
  · exact h.done
  · refine fun a => (h.order a).imp fun {n m} hfront => ⟨fun heq => ?_, hfront.2⟩
    dsimp only
    rw [hmrHeld]
    exact hfront.1 heq

theorem frMessageGc_collects (hgood : Good ms) (h : frMessageGc ms maxToClean = some ms') :
    Collects ms ms' := by
  rw [frMessageGc] at h
  obtain ⟨⟨ms₁, total⟩, hsweep, h⟩ := bind_eq_some_iff.mp h
  have hfirst := sweep_collects hgood hsweep
  dsimp only at h
  split at h
  · cases h
    exact hfirst
  obtain ⟨mr, hmr, h⟩ := bind_eq_some_iff.mp h
  obtain ⟨rb, hrb, h⟩ := bind_eq_some_iff.mp h
  obtain ⟨hmrWF, hmrHeld, -⟩ := hfirst.good.mr.coalesce hfirst.good.header_pos hmr
  obtain ⟨hrbWF, hrbHeld, hring⟩ := hfirst.good.rb.coalesce hfirst.good.block_pos hrb
  -- whatever becomes the current ring buffer
  have hlast : ∀ current, Collects ms₁ { ms₁ with mr := mr, rb := { rb with current := current } } := by
    intro current
    refine ⟨hfirst.good.replace hmrWF (hrbWF.set_current current) (funext hmrHeld)
      (funext hrbHeld), ?_⟩
    rintro a r n hr ⟨x, hx, -⟩ hroom
    refine ⟨r, (hring a ?_).trans hr, hroom⟩
    rw [Rings.held_eq hr]
    exact List.ne_nil_of_mem hx
  obtain ⟨-, -, h⟩ := bind_eq_some_iff.mp h
  split at h
  · cases h
    exact hfirst.trans (hlast rb.current)
  obtain ⟨free, -, h⟩ := bind_eq_some_iff.mp h
  obtain ⟨slot, -, h⟩ := bind_eq_some_iff.mp h
  obtain ⟨-, -, h⟩ := bind_eq_some_iff.mp h
  cases h
  exact hfirst.trans (hlast slot)

end Gc

end FreeRadius.Message
