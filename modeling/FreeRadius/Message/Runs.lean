import FreeRadius.Message.Reserve

/-!
# Runs of a message set

What the callers of a message set do with it, in any order, and what holds in
every state of a run whose calls keep to some rules.
-/

namespace FreeRadius.Message

open Library RingBuffer List

/-- A message set and its callers: the messages that are allocated and not done,
the one that the last reservation returned, if it is neither allocated nor done,
and the message that the last call returned. -/
structure Session where
  ms : FrMessageSet
  live : List MsgPtr
  last : Option MsgPtr
  out : Option MsgPtr

/-- The calls of a run; `alloc` and `allocReserve` are for the last reserved
message. -/
inductive Op where
  | reserve (reserveSize : ℕ)
  | alloc (actualPacketSize : ℕ)
  | allocReserve (actualPacketSize leftover reserveSize : ℕ)
  | done (m : MsgPtr)

namespace Session

/-- A call that ends the process changes nothing. -/
def act (c : Session) : Op → Session
  | .reserve reserveSize =>
    match frMessageReserve c.ms reserveSize with
    | none => c
    | some (ms, .ok m) => { c with ms := ms, last := some m, out := some m }
    | some (ms, .error _) => { c with ms := ms, last := none, out := none }
  | .alloc actualPacketSize =>
    match frMessageAlloc c.ms c.last actualPacketSize with
    | none => c
    | some (ms, .ok m) => { ms := ms, live := m :: c.live, last := none, out := some m }
    | some (ms, .error _) => { c with ms := ms, out := none }
  | .allocReserve actualPacketSize leftover reserveSize =>
    match c.last with
    | none => c
    | some m =>
      match frMessageAllocReserve c.ms m actualPacketSize leftover reserveSize with
      | none => c
      | some (ms, .ok m₂) => { ms := ms, live := m :: c.live, last := some m₂, out := some m₂ }
      -- the message is allocated nevertheless
      | some (ms, .error _) => { ms := ms, live := m :: c.live, last := none, out := none }
  | .done m =>
    match frMessageDone c.ms m with
    | none => c
    | some ms =>
      { ms := ms, live := c.live.filter (· ≠ m), last := c.last.filter (· ≠ m), out := none }

def run (c : Session) (ops : List Op) : Session := ops.foldl act c

/-- A message set that nobody has called yet. -/
def start (ms : FrMessageSet) : Session := ⟨ms, [], none, none⟩

end Session

/-- The headers and the data of two messages have no byte in common. A message
ring and a ring buffer are never the same. -/
structure Apart (ms : FrMessageSet) (m n : MsgPtr) : Prop where
  header : m.1 = n.1 → ¬(ms.header m).Overlap (ms.header n)
  data : ∀ a, (ms.msg m).rb = some a → (ms.msg n).rb = some a → ¬(ms.block m).Overlap (ms.block n)

variable {ndebug : Bool} {numMessages : ℤ} {messageSize ringBufferSize : ℕ} {ms : FrMessageSet}
  {ops : List Op} {c : Session}

section Invariant

variable {ms ms' : FrMessageSet} {m n : MsgPtr} {c : Session}

theorem good_create
    (h : frMessageSetCreate ndebug numMessages messageSize ringBufferSize = .ok ms) : Good ms := by
  rw [frMessageSetCreate] at h
  dsimp only at h
  generalize (if numMessages < 8 then 8 else numMessages.toNat) = n at h
  split at h
  · cases h
  split at h
  · cases h
  split at h
  · cases h
  rename_i hsmall hlarge
  split at h
  · cases h
  · cases h
  rename_i rb mr hrb hmr
  cases h
  have hle : ringBufferSize ≤ 2 ^ 30 := size_le_of_create hrb
  have hmin : 48 ≤ messageSize := Nat.le_of_not_lt hsmall
  have halign := @le_cacheAlign messageSize (by omega)
  have halign' := @cacheAlign_le messageSize (by omega)
  have hheld : ∀ rb a, (Rings.single rb).held a = [] := by
    intro rb a
    simp only [Rings.single, Rings.held, Function.update_apply]
    split <;> rfl
  refine ⟨?_, ?_, ?_, rfl, Rings.wf_single (holds_create hmr),
    Rings.wf_single (holds_create hrb), fun a m hm => ?_, (by rintro m ⟨⟩), fun a m hm => ?_,
    (by rintro m ⟨⟩), fun a => ?_⟩
  · dsimp only
    omega
  · dsimp only
    omega
  · dsimp only
    omega
  · rw [hheld] at hm
    cases hm
  · rw [hheld] at hm
    cases hm
  · dsimp only
    rw [hheld]
    exact .nil

/-- The data of a message in use is apart from the data of any other one, and
from what has been reserved. -/
theorem Live.apart (hgood : Good ms) (hm : Live ms m) (hn : (ms.msg n).status = .used)
    (hdata : Live ms n ∨ Placed ms n) (hne : m ≠ n) : Apart ms m n where
  header hring := by
    have hmem := hgood.used m hm.used
    rw [hring] at hmem
    exact hgood.mr.apart_of_ne hmem (hgood.used n hn) hne
  data a hma hna := by
    rcases hdata with hlive | hplaced
    · exact hgood.rb.apart_of_ne (hm.stored a hma) (hlive.stored a hna) hne
    · exact hplaced.apart a hna m (hm.stored a hma)

/-- The invariant of a run. -/
structure Session.Inv (c : Session) : Prop where
  good : Good c.ms
  live : ∀ m ∈ c.live, Live c.ms m
  last : ∀ m, c.last = some m → Owns c.ms m (c.ms.msg m).rbSize ∧ Placed c.ms m ∧ m ∉ c.live
  out : ∀ m, c.out = some m → (c.ms.msg m).status = .used ∧ (Live c.ms m ∨ Placed c.ms m)

theorem inv_start (h : Good ms) : (Session.start ms).Inv :=
  ⟨h, (fun _ hm => nomatch hm), (fun _ hm => nomatch hm), (fun _ hm => nomatch hm)⟩

/-- The rule for `fr_message_done`: the message has been allocated, or has no data,
and every message in front of it in its ring buffer has its header in the same
message ring. -/
def MayBeDone (c : Session) (m : MsgPtr) : Prop :=
  (m ∈ c.live ∨ (c.ms.msg m).rb = none) ∧
    ∀ a ∈ (c.ms.msg m).rb, ∀ n ∈ (c.ms.rb.held a).takeWhile (· ≠ m), n.1 = m.1

theorem mem_takeWhile_of_sublist {l : List MsgPtr} (hl : l.Nodup) (h : [n, m].Sublist l) :
    n ∈ l.takeWhile (· ≠ m) := by
  induction l with
  | nil => cases h
  | cons x l ih =>
    rw [nodup_cons] at hl
    have hx : x ≠ m := by
      rintro rfl
      exact hl.1 (h.tail.subset (mem_singleton.mpr rfl))
    rw [takeWhile_cons_of_pos (by simpa using hx)]
    cases h with
    | cons _ h => exact mem_cons_of_mem x (ih hl.2 h)
    | cons_cons => exact mem_cons_self

theorem block_done (ms : FrMessageSet) (m x : MsgPtr) :
    (ms.setMsg m { ms.msg m with status := .done }).block x = ms.block x := by
  by_cases hx : x = m
  · rw [hx, FrMessageSet.block, FrMessageSet.setMsg_self]
    rfl
  · exact block_congr (ms.setMsg_of_ne _ hx)

/-- A message that is done stays where it is. -/
theorem Session.Inv.keeps_done (hinv : c.Inv) (hdone : MayBeDone c m)
    (hm : (c.ms.msg m).status = .used) :
    Keeps {m} c.ms (c.ms.setMsg m { c.ms.msg m with status := .done }) := by
  have h := hinv.good
  have hmsg : ∀ x, x ≠ m → _ := fun x hx =>
    c.ms.setMsg_of_ne { c.ms.msg m with status := .done } hx
  refine ⟨⟨rfl, rfl, rfl, fun x hx _ => hmsg x hx, fun _ _ _ _ hx => hx, fun _ _ _ hx => hx,
    fun _ _ _ _ _ _ _ hx => hx⟩, ⟨h.size_pos, h.size_le, h.max_le, h.notFailed, h.mr,
    h.rb.congr fun _ x _ => block_done c.ms m x, h.head, fun x hx => ?_, fun a x hx => ?_,
    fun x hx a ha => ?_, fun a => ?_⟩⟩
  · by_cases hxm : x = m
    · rw [hxm]
      exact h.used m hm
    · rw [hmsg x hxm] at hx
      exact h.used x hx
  · by_cases hxm : x = m
    · subst hxm
      rw [FrMessageSet.setMsg_self]
      exact h.stored a x hx
    · rw [hmsg x hxm]
      exact h.stored a x hx
  · by_cases hxm : x = m
    · subst hxm
      rw [FrMessageSet.setMsg_self] at ha
      rcases hdone.1 with hlive | hbare
      · exact (hinv.live x hlive).stored a ha
      · cases hbare.symm.trans ha
    · rw [hmsg x hxm] at hx ha
      exact h.done x hx a ha
  · refine pairwise_iff_forall_sublist.mpr fun {n x} hsub => ?_
    have hfront := pairwise_iff_forall_sublist.mp (h.order a) hsub
    refine ⟨hfront.1, fun hx => ?_⟩
    by_cases hxm : x = m
    · subst hxm
      exact hdone.2 a (h.stored a x (hsub.subset (by simp))).2.1 n
        (mem_takeWhile_of_sublist (h.rb.nodup h.block_pos a) hsub)
    · rw [hmsg x hxm] at hx
      exact hfront.2 hx

theorem Frame.lives {E : Set MsgPtr} {live : List MsgPtr} (h : Frame E ms ms')
    (hlive : ∀ x ∈ live, Live ms x) (hE : ∀ x ∈ E, Live ms' x) : ∀ x ∈ live, Live ms' x := by
  intro x hx
  by_cases hmem : x ∈ E
  · exact hE x hmem
  · exact h.live hmem (hlive x hx)

end Invariant

section Steps

variable {c : Session} {op : Op} {m : MsgPtr} {live : List MsgPtr}

/-- The rules for the calls of a run. Without debugging, a message that is reserved
has to get data, as its header is not cleared. -/
def Fits (c : Session) : Op → Prop
  | .reserve n => c.ms.ndebug = true → 0 < n
  | .alloc n =>
    (c.last = none → c.ms.ndebug = true → 0 < n) ∧ ∀ m ∈ c.last, n ≤ (c.ms.msg m).rbSize
  | .allocReserve n leftover reserveSize => ∀ m ∈ c.last, Continues c.ms m n leftover reserveSize
  | .done m => MayBeDone c m

/-- All calls of a run keep to the rules. -/
def AllFit : Session → List Op → Prop
  | _, [] => True
  | c, op :: ops => Fits c op ∧ AllFit (c.act op) ops

instance : Decidable (Fits c op) :=
  match op with
  | .reserve _ => inferInstanceAs (Decidable (_ → _))
  | .alloc _ => inferInstanceAs (Decidable (_ ∧ _))
  | .allocReserve _ _ _ => inferInstanceAs (Decidable (∀ m ∈ c.last, _ ∧ _ ∧ _ ∧ ite _ _ _))
  | .done _ => inferInstanceAs (Decidable ((_ ∨ _) ∧ _))

instance : ∀ (c : Session) (ops : List Op), Decidable (AllFit c ops)
  | _, [] => inferInstanceAs (Decidable True)
  | c, op :: ops =>
    have := instDecidableAllFit (c.act op) ops
    inferInstanceAs (Decidable (_ ∧ _))

theorem inv_handed {ms₀ : FrMessageSet} (hgood : Good ms) (hlive : ∀ x ∈ live, Live ms x)
    (hhanded : Handed ms₀ ms m) (hnew : m ∉ live) :
    Session.Inv { ms := ms, live := live, last := some m, out := some m } := by
  refine ⟨hgood, hlive, fun x hx => ?_, fun x hx => ?_⟩
  · cases hx
    exact ⟨hhanded.owns, hhanded.placed, hnew⟩
  · cases hx
    exact ⟨hhanded.owns.used, .inr hhanded.placed⟩

theorem inv_error (hgood : Good ms) (hlive : ∀ x ∈ live, Live ms x) :
    Session.Inv { ms := ms, live := live, last := none, out := none } :=
  ⟨hgood, hlive, (fun _ hx => nomatch hx), fun _ hx => nomatch hx⟩

theorem inv_allocated {ms₁ : FrMessageSet} (hlives : ∀ x ∈ live, Live ms₁ x)
    (hkeeps : Keeps {m} ms₁ ms) (hlive : Live ms m) :
    Session.Inv { ms := ms, live := m :: live, last := none, out := some m } := by
  refine ⟨hkeeps.good, fun x hx => ?_, (fun _ hx => nomatch hx), fun x hx => ?_⟩
  · rcases mem_cons.mp hx with rfl | hx
    · exact hlive
    · exact hkeeps.toFrame.lives hlives (by simpa using hlive) x hx
  · cases hx
    exact ⟨hlive.used, .inl hlive⟩

section

variable (hinv : c.Inv)

include hinv

theorem Session.Inv.reserve {n : ℕ} (hfits : Fits c (.reserve n)) : (c.act (.reserve n)).Inv := by
  rw [Session.act]
  rcases h : frMessageReserve c.ms n with _ | ⟨ms, res⟩
  · exact hinv
  obtain ⟨hkeeps, hhanded⟩ := frMessageReserve_handed hinv.good hfits h
  have hlive := hkeeps.toFrame.lives hinv.live (by simp)
  cases res with
  | ok m =>
    exact inv_handed hkeeps.good hlive (hhanded m rfl).1 fun hm =>
      (hhanded m rfl).1.notUsed (hinv.live m hm).used
  | error e => exact inv_error hkeeps.good hlive

theorem Session.Inv.alloc {n : ℕ} (hfits : Fits c (.alloc n)) : (c.act (.alloc n)).Inv := by
  rw [Session.act]
  cases hlast : c.last with
  | some m =>
    rw [frMessageAlloc]
    rcases h : allocReserved c.ms m n with _ | ⟨ms, res⟩
    · exact hinv
    obtain ⟨howns, hplaced, -⟩ := hinv.last m hlast
    obtain ⟨rfl, hkeeps, hlive⟩ := allocReserved_live hinv.good howns hplaced (hfits.2 m hlast) h
    exact inv_allocated hinv.live hkeeps hlive
  | none =>
    rw [frMessageAlloc]
    rcases hreserve : frMessageReserve c.ms n with _ | ⟨ms₁, res⟩
    · exact hinv
    obtain ⟨hkeeps, hhanded⟩ := frMessageReserve_handed hinv.good (hfits.1 hlast) hreserve
    have hlives := hkeeps.toFrame.lives hinv.live (by simp)
    cases res with
    | error e => exact hlast ▸ inv_error hkeeps.good hlives
    | ok m =>
      rw [Option.bind_eq_bind, Option.bind_some]
      dsimp only
      rcases h : allocReserved ms₁ m n with _ | ⟨ms, res⟩
      · exact hinv
      obtain ⟨hhanded, hle⟩ := hhanded m rfl
      obtain ⟨rfl, hkeeps₂, hlive⟩ :=
        allocReserved_live hkeeps.good hhanded.owns hhanded.placed hle h
      exact inv_allocated hlives hkeeps₂ hlive

theorem Session.Inv.allocReserve {n leftover reserveSize : ℕ}
    (hfits : Fits c (.allocReserve n leftover reserveSize)) :
    (c.act (.allocReserve n leftover reserveSize)).Inv := by
  rw [Session.act]
  cases hlast : c.last with
  | none => exact hinv
  | some m =>
    dsimp only
    rcases h : frMessageAllocReserve c.ms m n leftover reserveSize with _ | ⟨ms, res⟩
    · exact hinv
    obtain ⟨howns, hplaced, hnew⟩ := hinv.last m hlast
    obtain ⟨hkeeps, hlive, hhanded⟩ :=
      frMessageAllocReserve_live hinv.good howns hplaced (hfits m hlast) h
    have hlives := (inv_allocated hinv.live hkeeps hlive).live
    cases res with
    | ok m₂ =>
      refine inv_handed hkeeps.good hlives (hhanded m₂ rfl) fun hm => (hhanded m₂ rfl).notUsed ?_
      rcases mem_cons.mp hm with rfl | hm
      · exact howns.used
      · exact (hinv.live m₂ hm).used
    | error e => exact inv_error hkeeps.good hlives

theorem Session.Inv.done (hfits : Fits c (.done m)) : (c.act (.done m)).Inv := by
  rw [Session.act]
  rcases h : frMessageDone c.ms m with _ | ms
  · exact hinv
  rw [frMessageDone] at h
  obtain ⟨-, -, h⟩ := Option.bind_eq_some_iff.mp h
  split at h
  · rename_i hused
    cases h
    have hkeeps := hinv.keeps_done hfits hused
    refine ⟨hkeeps.good, fun x hx => ?_, fun x hx => ?_, fun _ hx => nomatch hx⟩
    · obtain ⟨hx, hne⟩ := mem_filter.mp hx
      exact hkeeps.toFrame.live (of_decide_eq_true hne) (hinv.live x hx)
    obtain ⟨hx, hne⟩ := Option.filter_eq_some_iff.mp hx
    obtain ⟨howns, hplaced, hnew⟩ := hinv.last x hx
    dsimp only
    rw [c.ms.setMsg_of_ne _ (of_decide_eq_true hne)]
    have hmsg := c.ms.setMsg_of_ne { c.ms.msg m with status := .done } (of_decide_eq_true hne)
    refine ⟨⟨by rw [hmsg]; exact howns.used, by rw [hmsg], howns.size_le, howns.aligned,
      howns.unstored, howns.after⟩, ⟨fun a ha y hy => ?_, fun a ha => ?_⟩,
      fun hmem => hnew (mem_of_mem_filter hmem)⟩
    · rw [hmsg] at ha
      rw [block_done, block_done]
      exact hplaced.apart a ha y hy
    · rw [hmsg] at ha ⊢
      exact hplaced.ready a ha
  · cases h
    refine ⟨hinv.good, fun x hx => hinv.live x (mem_of_mem_filter hx), fun x hx => ?_, fun _ hx =>
      nomatch hx⟩
    obtain ⟨howns, hplaced, hnew⟩ := hinv.last x (Option.filter_eq_some_iff.mp hx).1
    exact ⟨howns, hplaced, fun hmem => hnew (mem_of_mem_filter hmem)⟩

theorem Session.Inv.act (hfits : Fits c op) : (c.act op).Inv := by
  cases op with
  | reserve n => exact hinv.reserve hfits
  | alloc n => exact hinv.alloc hfits
  | allocReserve n leftover reserveSize => exact hinv.allocReserve hfits
  | done m => exact hinv.done hfits

end

/-- The invariant holds at the end of a run whose calls keep to the rules. -/
theorem Session.Inv.run (hinv : c.Inv) (hfits : AllFit c ops) : (c.run ops).Inv := by
  induction ops generalizing c with
  | nil => exact hinv
  | cons op ops ih => exact ih (hinv.act hfits.1) hfits.2

end Steps

section Reuse

/-- The header and the data of a message that is allocated and not done are apart
from the ones of any other message like that, and of the message that is handed
out now, which is not one of them if it has just been reserved. -/
structure Sound (c : Session) : Prop where
  live : ∀ m ∈ c.live, ∀ n ∈ c.live, m ≠ n → Apart c.ms m n
  out : ∀ n, c.out = some n → ∀ m ∈ c.live, m ≠ n → Apart c.ms m n
  last : ∀ n, c.last = some n → n ∉ c.live

theorem Session.Inv.sound (h : c.Inv) : Sound c where
  live m hm n hn hne := (h.live m hm).apart h.good (h.live n hn).used (.inl (h.live n hn)) hne
  out n hn m hm hne := (h.live m hm).apart h.good (h.out n hn).1 (h.out n hn).2 hne
  last n hn := (h.last n hn).2.2

/-- In a run whose calls keep to the rules, no message is handed out with bytes of a
message that is in use. -/
theorem message_not_reused (ndebug : Bool) (numMessages : ℤ) (messageSize ringBufferSize : ℕ)
    (ms : FrMessageSet)
    (hcreate : frMessageSetCreate ndebug numMessages messageSize ringBufferSize = .ok ms)
    (ops : List Op) (hfits : AllFit (Session.start ms) ops) : Sound ((Session.start ms).run ops) :=
  ((inv_start (good_create hcreate)).run hfits).sound

/-- Three messages of 512 bytes with a ring buffer of 1024 bytes: the second one
is done before the first one, and both are cleaned when the message ring is full. -/
theorem message_not_reused_three :
    ∃ ms, frMessageSetCreate true 8 64 1024 = .ok ms ∧
      Sound ((Session.start ms).run
        ([.reserve 512, .alloc 500, .reserve 512, .alloc 512, .done (0, 64), .reserve 512, .alloc 1,
          .done (0, 0)] ++ replicate 14 (.reserve 100))) :=
  ⟨_, rfl, message_not_reused true 8 64 1024 _ rfl _ (by decide +kernel)⟩

/-- The message rings share a ring buffer: the only message in the second message
ring is done, and collecting it frees the bytes of the first message, which is in
the first message ring and is in use. The next message gets these bytes. -/
theorem message_reused :
    ∃ ms c, frMessageSetCreate false 8 1024 1024 = .ok ms ∧
      c = (Session.start ms).run
        ([.reserve 512, .alloc 512] ++ replicate 7 (.reserve 0) ++
          [.reserve 512, .alloc 512, .done (1, 0)] ++
          (replicate 4 [.reserve 512, .alloc 512]).flatten ++ [.reserve 448]) ∧
      (0, 0) ∈ c.live ∧ c.out = some (1, 5120) ∧ ¬Apart c.ms (0, 0) (1, 5120) := by
  refine ⟨_, _, rfl, rfl, by decide +kernel, by decide +kernel, fun h => ?_⟩
  refine h.data 0 (by decide +kernel) (by decide +kernel) ⟨0, ⟨?_, ?_⟩, ?_, ?_⟩ <;> decide +kernel

end Reuse

section Accounting

/-- What is claimed of the ring buffers: the used bytes are the ones of the messages
that are allocated and not cleaned, which have no byte in common; no cleanup has
failed; and without messages nothing is used. -/
structure Accounted (c : Session) : Prop where
  used : ∀ a r, c.ms.rb.ring a = some r →
    frRingBufferUsed r.rb = (r.held.map fun m => (c.ms.msg m).rbSize).sum
  apart : ∀ a, (c.ms.rb.held a).Pairwise fun m n => ¬(c.ms.block m).Overlap (c.ms.block n)
  stored : ∀ m ∈ c.live, ∀ a, (c.ms.msg m).rb = some a → m ∈ c.ms.rb.held a
  notFailed : c.ms.failed = false
  empty : (∀ a, c.ms.mr.held a = []) → ∀ a r, c.ms.rb.ring a = some r → frRingBufferUsed r.rb = 0

theorem Session.Inv.accounted (h : c.Inv) : Accounted c where
  used _ _ hr := h.good.rb.used hr
  apart := h.good.rb.apart
  stored m hm := (h.live m hm).stored
  notFailed := h.good.notFailed
  empty hempty a r hr := by
    have hheld : r.held = [] := by
      refine eq_nil_iff_forall_not_mem.mpr fun m hm => ?_
      have := (h.good.stored a m (by rwa [Rings.held_eq hr])).1
      rw [hempty m.1] at this
      cases this
    rw [h.good.rb.used hr, hheld]
    rfl

/-- In a run whose calls keep to the rules, the accounting is exact. -/
theorem ringBuffers_accounted (ndebug : Bool) (numMessages : ℤ) (messageSize ringBufferSize : ℕ)
    (ms : FrMessageSet)
    (hcreate : frMessageSetCreate ndebug numMessages messageSize ringBufferSize = .ok ms)
    (ops : List Op) (hfits : AllFit (Session.start ms) ops) :
    Accounted ((Session.start ms).run ops) :=
  ((inv_start (good_create hcreate)).run hfits).accounted

/-- Two packets of a stream, and the start of a third one. -/
theorem ringBuffers_accounted_stream :
    ∃ ms, frMessageSetCreate true 8 64 1024 = .ok ms ∧
      Accounted ((Session.start ms).run
        [.reserve 512, .allocReserve 64 100 512, .allocReserve 70 30 512, .done (0, 0)]) :=
  ⟨_, rfl, ringBuffers_accounted true 8 64 1024 _ rfl _ (by decide +kernel)⟩

/-- The bytes that are left over go to a new ring buffer, and the message gets the
size that was reserved for it: 64 bytes are used, and its size is 512. -/
theorem allocReserve_size_restored :
    ∃ ms c r, frMessageSetCreate true 8 64 1024 = .ok ms ∧
      c = (Session.start ms).run [.reserve 512, .allocReserve 64 64 1024] ∧
      c.ms.rb.ring 0 = some r ∧ frRingBufferUsed r.rb = 64 ∧
      (r.held.map fun m => (c.ms.msg m).rbSize).sum = 512 := by
  refine ⟨_, _, ⟨⟨1024, 0, 64, 64, 448, false⟩, [(0, 0)]⟩, rfl, rfl, ?_, ?_, ?_⟩ <;> decide +kernel

end Accounting

end FreeRadius.Message
