import FreeRadius.Message.Collect

/-!
# Reserving and allocating messages

A message that is handed out has a header and data that no message in use has.
-/

namespace FreeRadius.Message

open Library RingBuffer Option FrMessageSet Function

variable {ms ms' ms₁ ms₂ : FrMessageSet} {m x : MsgPtr} {a mr : Addr}

section Write

variable {msg : FrMessage} {rings : Rings}

/-- A message that has no data yet is written, and may get a header or data behind
all others. -/
theorem Good.write (h : Good ms) (hunstored : ∀ a, m ∉ ms.rb.held a) {mr rb : Rings}
    (hmr : mr.WF ms.header) (hrb : rb.WF (ms.setMsg m msg).block)
    (hmrHeld : ∀ b, mr.held b = ms.mr.held b ∨ b = m.1 ∧ mr.held b = ms.mr.held b ++ [m])
    (hrbHeld : ∀ b, rb.held b = ms.rb.held b ∨ msg.rb = some b ∧ rb.held b = ms.rb.held b ++ [m])
    (hused : msg.status = .used → m ∈ mr.held m.1) (hdone : msg.status = .done → msg.rb = none)
    (hstored : ∀ b, m ∈ rb.held b → msg.status = .used ∧ 0 < msg.rbSize ∧
      ∀ n ∈ ms.rb.held b, n.1 = m.1 → [n, m].Sublist (mr.held m.1)) :
    Keeps {m} ms ({ ms with mr := mr, rb := rb }.setMsg m msg) := by
  have hne : ∀ b, ∀ x ∈ ms.rb.held b, x ≠ m := by
    rintro b x hx rfl
    exact hunstored b hx
  have hmsg : ∀ x, x ≠ m → ({ ms with mr := mr, rb := rb }.setMsg m msg).msg x = ms.msg x :=
    fun x hx => setMsg_of_ne _ msg hx
  have hsub : ∀ b, (ms.mr.held b).Sublist (mr.held b) := by
    intro b
    rcases hmrHeld b with heq | ⟨-, heq⟩ <;> rw [heq]
    exact List.sublist_append_left _ _
  have hmem : ∀ b x, x ∈ rb.held b → x ∈ ms.rb.held b ∨ x = m ∧ msg.rb = some b := by
    intro b x hx
    rcases hrbHeld b with heq | ⟨hb, heq⟩ <;> rw [heq] at hx
    · exact .inl hx
    · exact (List.mem_append.mp hx).imp_right fun hx => ⟨List.mem_singleton.mp hx, hb⟩
  have hkeep : ∀ b, ∀ x ∈ ms.rb.held b, x ∈ rb.held b := by
    intro b x hx
    rcases hrbHeld b with heq | ⟨-, heq⟩ <;> rw [heq]
    · exact hx
    · exact List.mem_append_left _ hx
  have hold : ∀ b, (ms.rb.held b).Pairwise
      (InFront ({ ms with mr := mr, rb := rb }.setMsg m msg)) := by
    refine fun b => (h.order b).imp_of_mem fun {n x} _ hx hfront =>
      ⟨fun heq => (hfront.1 heq).trans (hsub x.1), fun hx' => hfront.2 ?_⟩
    rwa [hmsg x (hne b x hx)] at hx'
  refine ⟨⟨rfl, rfl, rfl, fun x hx _ => hmsg x hx, fun b x _ _ hx => hkeep b x hx,
    fun b x hx hx' => (hmem b x hx').resolve_right fun h => hx h.1,
    fun _ _ _ x _ _ _ hx => hx.trans (hsub x.1)⟩, ⟨h.size_pos, h.size_le, h.max_le, h.notFailed,
    hmr, hrb, fun b x hx => ?_, fun x hx => ?_, fun b x hx => ?_, fun x hx b hb => ?_,
    fun b => ?_⟩⟩
  · change x ∈ mr.held b at hx
    rcases hmrHeld b with heq | ⟨rfl, heq⟩ <;> rw [heq] at hx
    · exact h.head b x hx
    · rcases List.mem_append.mp hx with hx | hx
      · exact h.head _ x hx
      · rw [List.mem_singleton.mp hx]
  · by_cases hxm : x = m
    · subst hxm
      rw [setMsg_self] at hx
      exact hused hx
    · rw [hmsg x hxm] at hx
      exact (hsub x.1).subset (h.used x hx)
  · rcases hmem b x hx with hx' | ⟨rfl, hb⟩
    · rw [hmsg x (hne b x hx')]
      exact ⟨(hsub x.1).subset (h.stored b x hx').1, (h.stored b x hx').2⟩
    · rw [setMsg_self]
      exact ⟨hused (hstored b hx).1, hb, (hstored b hx).2.1⟩
  · by_cases hxm : x = m
    · subst hxm
      rw [setMsg_self] at hx hb
      rw [hdone hx] at hb
      cases hb
    · rw [hmsg x hxm] at hx hb
      exact hkeep b x (h.done x hx b hb)
  · change (rb.held b).Pairwise _
    rcases hrbHeld b with heq | ⟨-, heq⟩
    · rw [heq]
      exact hold b
    have hm := hstored b (by rw [heq]; simp)
    rw [heq, List.pairwise_append]
    refine ⟨hold b, List.pairwise_singleton _ _, fun n hn x hx => ?_⟩
    rw [List.mem_singleton.mp hx]
    refine ⟨hm.2.2 n hn, fun hx' => ?_⟩
    rw [setMsg_self, hm.1] at hx'
    cases hx'

theorem wf_setMsg (h : rings.WF ms.block) (hm : ∀ a, m ∉ rings.held a) :
    rings.WF (ms.setMsg m msg).block := by
  refine h.congr fun a x hx => block_congr (ms.setMsg_of_ne msg ?_)
  rintro rfl
  exact hm a hx

/-- The message is written, and the ring buffers may change, but not what they hold. -/
theorem Good.setMsg (h : Good ms) (hm : ∀ a, m ∉ ms.rb.held a) (hwf : rings.WF ms.block)
    (hheld : ∀ a, rings.held a = ms.rb.held a)
    (hused : msg.status = .used → (ms.msg m).status = .used)
    (hdone : msg.status = .done → msg.rb = none) :
    Keeps {m} ms ({ ms with rb := rings }.setMsg m msg) := by
  have hm' : ∀ a, m ∉ rings.held a := fun a ha => hm a (by rwa [← hheld])
  exact h.write hm h.mr (wf_setMsg hwf hm') (fun _ => .inl rfl) (fun b => .inl (hheld b))
    (fun h' => h.used m (hused h')) hdone fun b hb => absurd hb (hm' b)

/-- Nothing that was in use has changed if only a new message is written. -/
theorem Keeps.hide (h : Keeps {m} ms ms') (hnew : (ms.msg m).status ≠ .used)
    (hunstored : ∀ a, m ∉ ms'.rb.held a) : Keeps ∅ ms ms' := by
  have hused : ∀ x, (ms.msg x).status = .used → x ∉ ({m} : Set MsgPtr) := by
    rintro x hx rfl
    exact hnew hx
  have hstored : ∀ a, ∀ x ∈ ms'.rb.held a, x ∉ ({m} : Set MsgPtr) := by
    rintro a x hx rfl
    exact hunstored a hx
  exact
    { h with
      msg := fun x _ hx => h.msg x (hused x hx) hx
      kept := fun a x _ hx => h.kept a x (hused x hx) hx
      fewer := fun a x _ hx => h.fewer a x (hstored a x hx) hx
      order := fun a x _ n _ hx hn => h.order a x (hstored a x hx) n (hused n hn) hx hn }

end Write

section Headers

variable {result : Option MsgPtr}

/-- The message has just got its header, behind the ones in its message ring. -/
structure New (ms ms' : FrMessageSet) (m : MsgPtr) : Prop where
  notUsed : (ms.msg m).status ≠ .used
  used : (ms'.msg m).status = .used
  bare : ms.ndebug = false → (ms'.msg m).rb = none ∧ (ms'.msg m).rbSize = 0
  unstored : ∀ a, m ∉ ms'.rb.held a
  after : ∀ a, ∀ n ∈ ms'.rb.held a, n.1 = m.1 → [n, m].Sublist (ms'.mr.held m.1)

/-- A function that may return a message with a new header. -/
structure GetsHeader (ms ms' : FrMessageSet) (result : Option MsgPtr) : Prop extends
    Collects ms ms' where
  new : ∀ m, result = some m → New ms ms' m

theorem Collects.getsHeader (h₁ : Collects ms ms₁) (h₂ : GetsHeader ms₁ ms₂ result) :
    GetsHeader ms ms₂ result where
  toCollects := h₁.trans h₂.toCollects
  new m hm :=
    { h₂.new m hm with
      notUsed := fun hused => (h₂.new m hm).notUsed (by
        rwa [h₁.msg m (Set.notMem_empty m) hused])
      bare := fun hndebug => (h₂.new m hm).bare (h₁.ndebug.trans hndebug) }

theorem Collects.getsNone (h : Collects ms ms') : GetsHeader ms ms' none :=
  ⟨h, fun _ hnone => nomatch hnone⟩

theorem Good.replaceHeaders (h : Good ms) {rings : Rings} (hwf : rings.WF ms.header)
    (hheld : ∀ a, rings.held a = ms.mr.held a) : Collects ms { ms with mr := rings } :=
  ⟨h.replace hwf h.rb (funext hheld) rfl, fun _ r _ hr _ hroom => ⟨r, hr, hroom⟩⟩

theorem allocHeader_getsHeader (hgood : Good ms) {zero : Bool}
    (hzero : ms.ndebug = false → zero = true) {result : Except MessageError MsgPtr}
    (h : allocHeader ms zero mr = some (ms', result)) : GetsHeader ms ms' result.toOption := by
  rw [allocHeader] at h
  obtain ⟨⟨rings, res⟩, halloc, h⟩ := bind_eq_some_iff.mp h
  dsimp only at h
  split at h
  · cases h
    obtain ⟨hwf, hheld⟩ := hgood.mr.alloc_error hgood.size_le halloc
    exact (hgood.replaceHeaders hwf hheld).getsNone
  rename_i offset
  cases h
  obtain ⟨hheld, hother, -, hapart, hwf⟩ := hgood.mr.alloc_ok hgood.size_le halloc
  have hnot : (mr, offset) ∉ ms.mr.held mr := fun hmem =>
    hapart _ hmem ⟨offset, ⟨le_rfl, Nat.lt_add_of_pos_right hgood.size_pos⟩,
      le_rfl, Nat.lt_add_of_pos_right hgood.size_pos⟩
  have hunstored : ∀ b, (mr, offset) ∉ ms.rb.held b := fun b hb => hnot (hgood.stored b _ hb).1
  have hnotUsed : (ms.msg (mr, offset)).status ≠ .used := fun hused => hnot (hgood.used _ hused)
  have hrings : ∀ b, rings.held b = ms.mr.held b ∨
      b = mr ∧ rings.held b = ms.mr.held b ++ [(mr, offset)] := by
    intro b
    by_cases hb : b = mr
    · exact .inr ⟨hb, by rw [hb, hheld]⟩
    · exact .inl (hother b hb)
  refine ⟨⟨Keeps.hide (hgood.write hunstored (hwf _ (fun _ _ _ => rfl) rfl)
    (wf_setMsg hgood.rb hunstored) hrings (fun _ => .inl rfl) (fun _ => ?_) (fun h => nomatch h)
    fun b hb => absurd hb (hunstored b)) hnotUsed hunstored,
    fun _ r _ hr _ hroom => ⟨r, hr, hroom⟩⟩, fun m hm => ?_⟩
  · rw [hheld]
    simp
  · cases hm
    refine ⟨hnotUsed, by rw [setMsg_self], fun hndebug => ?_, hunstored, fun b n hn heq => ?_⟩
    · rw [setMsg_self, hzero hndebug]
      exact ⟨rfl, rfl⟩
    · have hmem := (hgood.stored b n hn).1
      rw [heq] at hmem
      change [n, (mr, offset)].Sublist (rings.held mr)
      rw [hheld]
      exact (List.singleton_sublist.mpr hmem).append (List.Sublist.refl [(mr, offset)])

theorem frMessageRingAlloc_getsHeader (hgood : Good ms) {clean : Bool}
    {result : Except MessageError MsgPtr}
    (h : frMessageRingAlloc ms mr clean = some (ms', result)) :
    GetsHeader ms ms' result.toOption := by
  rw [frMessageRingAlloc] at h
  split at h
  · obtain ⟨⟨ms₁, cleaned⟩, hgc, h⟩ := bind_eq_some_iff.mp h
    have hcollects := frMessageRingGc_collects hgood hgc
    dsimp only at h
    split at h
    · cases h
      exact hcollects.getsNone
    · exact hcollects.getsHeader (allocHeader_getsHeader hcollects.good (by simp) h)
  · exact allocHeader_getsHeader hgood (by simp) h

theorem anyMessageRing_getsHeader (hgood : Good ms) {i : ℕ}
    (h : anyMessageRing ms i = some (ms', result)) : GetsHeader ms ms' result := by
  induction i generalizing ms with
  | zero =>
    cases h
    exact (Collects.refl hgood).getsNone
  | succ i ih =>
    rw [anyMessageRing] at h
    obtain ⟨mr, -, h⟩ := bind_eq_some_iff.mp h
    obtain ⟨⟨ms₁, m⟩, halloc, h⟩ := bind_eq_some_iff.mp h
    have hfirst := frMessageRingAlloc_getsHeader hgood halloc
    dsimp only at h
    split at h
    · cases h
      refine ⟨hfirst.toCollects.trans (hfirst.good.replaceHeaders (hfirst.good.mr.set_current i)
        fun _ => rfl), fun m hm => ?_⟩
      have hnew := hfirst.new m hm
      exact ⟨hnew.notUsed, hnew.used, hnew.bare, hnew.unstored, hnew.after⟩
    · exact hfirst.toCollects.getsHeader (ih hfirst.good h)

theorem newMessageRing_getsHeader (hgood : Good ms) {result : Except MessageError MsgPtr}
    (h : newMessageRing ms = some (ms', result)) : GetsHeader ms ms' result.toOption := by
  rw [newMessageRing] at h
  split at h
  · cases h
    exact (Collects.refl hgood).getsNone
  obtain ⟨res, hdouble, h⟩ := bind_eq_some_iff.mp h
  split at h
  · cases h
    exact (Collects.refl hgood).getsNone
  rename_i rings
  obtain ⟨mr, -, h⟩ := bind_eq_some_iff.mp h
  obtain ⟨hwf, hheld⟩ := hgood.mr.double hdouble
  have hring := hgood.replaceHeaders hwf hheld
  exact hring.getsHeader (frMessageRingAlloc_getsHeader hring.good h)

theorem frMessageGetMessage_getsHeader (hgood : Good ms) {cleaned : Bool}
    {result : Except MessageError MsgPtr}
    (h : frMessageGetMessage ms = some (ms', cleaned, result)) :
    GetsHeader ms ms' result.toOption := by
  rw [frMessageGetMessage] at h
  obtain ⟨mr, -, h⟩ := bind_eq_some_iff.mp h
  obtain ⟨⟨ms₁, m₁⟩, hnormal, h⟩ := bind_eq_some_iff.mp h
  have h₁ := allocHeader_getsHeader hgood (fun _ => rfl) hnormal
  dsimp only at h
  split at h
  · cases h
    exact h₁
  obtain ⟨ms₂, hgc, h⟩ := bind_eq_some_iff.mp h
  obtain ⟨mr, -, h⟩ := bind_eq_some_iff.mp h
  obtain ⟨⟨ms₃, m₃⟩, hcurrent, h⟩ := bind_eq_some_iff.mp h
  have h₂ := h₁.toCollects.trans (frMessageGc_collects h₁.good hgc)
  have h₃ := h₂.getsHeader (frMessageRingAlloc_getsHeader h₂.good hcurrent)
  dsimp only at h
  split at h
  · cases h
    exact h₃
  obtain ⟨⟨ms₄, m₄⟩, hany, h⟩ := bind_eq_some_iff.mp h
  have h₄ := h₃.toCollects.getsHeader (anyMessageRing_getsHeader h₃.good hany)
  dsimp only at h
  split at h
  · cases h
    exact h₄
  · obtain ⟨⟨ms₅, m₅⟩, hnew, h⟩ := bind_eq_some_iff.mp h
    cases h
    exact h₄.toCollects.getsHeader (newMessageRing_getsHeader h₄.good hnew)

end Headers

section Data

variable {result : Except MessageError MsgPtr} {reserved : Bool} {size : ℕ}

/-- The message is in use, and no data has been allocated for it. -/
structure Owns (ms : FrMessageSet) (m : MsgPtr) (size : ℕ) : Prop where
  used : (ms.msg m).status = .used
  size_eq : (ms.msg m).rbSize = size
  size_le : size + 64 ≤ 2 ^ 63
  aligned : size % 64 = 0
  unstored : ∀ a, m ∉ ms.rb.held a
  after : ∀ a, ∀ n ∈ ms.rb.held a, n.1 = m.1 → [n, m].Sublist (ms.mr.held m.1)

/-- The data of the message has no byte of what its ring buffer holds, and is what
the ring buffer allocates next. -/
structure Placed (ms : FrMessageSet) (m : MsgPtr) : Prop where
  apart : ∀ a, (ms.msg m).rb = some a → ∀ x ∈ ms.rb.held a, ¬(ms.block x).Overlap (ms.block m)
  ready : ∀ a, (ms.msg m).rb = some a → ∃ r, ms.rb.ring a = some r ∧
    (ms.msg m).data = some r.rb.writeOffset ∧ Ready r.rb (ms.msg m).rbSize

/-- The message is in use, and its data is in its ring buffer if it has any. -/
structure Live (ms : FrMessageSet) (m : MsgPtr) : Prop where
  used : (ms.msg m).status = .used
  stored : ∀ a, (ms.msg m).rb = some a → m ∈ ms.rb.held a

theorem Frame.owns (h : Frame ∅ ms ms') (howns : Owns ms m size) : Owns ms' m size := by
  have hm := Set.notMem_empty m
  refine ⟨?_, ?_, howns.size_le, howns.aligned, fun a ha => ?_, fun a n hn heq => ?_⟩
  · rw [h.msg m hm howns.used]
    exact howns.used
  · rw [h.msg m hm howns.used]
    exact howns.size_eq
  · exact howns.unstored a (h.fewer a m hm ha)
  · have hn' := h.fewer a n (Set.notMem_empty n) hn
    exact h.order a n (Set.notMem_empty n) m hm hn howns.used (howns.after a n hn' heq)

theorem Frame.live {E : Set MsgPtr} (h : Frame E ms ms') (hm : m ∉ E) (hlive : Live ms m) :
    Live ms' m where
  used := by rw [h.msg m hm hlive.used]; exact hlive.used
  stored a ha := by
    rw [h.msg m hm hlive.used] at ha
    exact h.kept a m hm hlive.used (hlive.stored a ha)

/-- A function that may reserve data for a message with a header. -/
structure Reserves (ms ms' : FrMessageSet) (m : MsgPtr) (n : ℕ) (reserved : Bool) : Prop extends
    Keeps {m} ms ms' where
  owns : Owns ms' m n
  placed : reserved = true → Placed ms' m

theorem Keeps.reserves (h₁ : Keeps {m} ms ms₁) (h₂ : Reserves ms₁ ms₂ m size reserved) :
    Reserves ms ms₂ m size reserved :=
  ⟨h₁.trans h₂.toKeeps, h₂.owns, h₂.placed⟩

/-- A reservation succeeds if there is room for it. -/
theorem reserveIn_reserves (hgood : Good ms) (howns : Owns ms m size)
    (h : reserveIn ms m a = some (ms', reserved)) :
    Reserves ms ms' m size reserved ∧
      ∀ r, ms.rb.ring a = some r → Room r.rb 0 size → reserved = true := by
  rw [reserveIn, howns.size_eq] at h
  obtain ⟨⟨rings, result⟩, hreserve, h⟩ := bind_eq_some_iff.mp h
  obtain ⟨hwf, hheld, hroom, hok⟩ :=
    hgood.rb.reserve (by have := howns.size_le; omega) hreserve
  -- in both cases only `rb` and `data` are written
  have hset : ∀ data, Keeps {m} ms
      ({ ms with rb := rings }.setMsg m { ms.msg m with rb := some a, data := data }) ∧
      Owns ({ ms with rb := rings }.setMsg m { ms.msg m with rb := some a, data := data }) m size := by
    refine fun data => ⟨hgood.setMsg howns.unstored hwf hheld (fun _ => howns.used) (fun hdone =>
      by cases howns.used.symm.trans hdone), ?_, ?_, howns.size_le, howns.aligned, fun b hb => ?_,
      fun b n hn => ?_⟩
    · rw [setMsg_self]
      exact howns.used
    · rw [setMsg_self]
      exact howns.size_eq
    · exact howns.unstored b (by rwa [← hheld])
    · exact howns.after b n (by rwa [← hheld])
  dsimp only at h
  split at h
  · rename_i offset
    cases h
    obtain ⟨hapart, r, hr, rfl, hready⟩ := hok offset rfl
    refine ⟨⟨(hset _).1, (hset _).2, fun _ => ⟨fun b hb x hx => ?_, fun b hb => ?_⟩⟩, fun _ _ _ => rfl⟩
    · rw [setMsg_self] at hb
      cases hb
      change x ∈ rings.held a at hx
      rw [hheld] at hx
      have hne : x ≠ m := by
        rintro rfl
        exact howns.unstored a hx
      rw [block_congr (setMsg_of_ne _ _ hne), block, block, setMsg_self, howns.size_eq]
      exact hapart x hx
    · rw [setMsg_self] at hb ⊢
      cases hb
      exact ⟨r, hr, rfl, howns.size_eq.symm ▸ hready⟩
  · cases h
    refine ⟨⟨(hset _).1, (hset _).2, by rintro ⟨⟩⟩, fun r hr hroom' => ?_⟩
    obtain ⟨offset, hoffset⟩ := hroom r hr hroom'
    cases hoffset

theorem reserveCurrent_reserves (hgood : Good ms) (howns : Owns ms m size)
    (h : reserveCurrent ms m = some (ms', reserved)) : Reserves ms ms' m size reserved := by
  rw [reserveCurrent] at h
  obtain ⟨a, -, h⟩ := bind_eq_some_iff.mp h
  exact (reserveIn_reserves hgood howns h).1

theorem anyRingBuffer_reserves (hgood : Good ms) (howns : Owns ms m size) {i : ℕ}
    (h : anyRingBuffer ms m i = some (ms', reserved)) : Reserves ms ms' m size reserved := by
  induction i generalizing ms with
  | zero =>
    cases h
    exact ⟨Keeps.refl _ hgood, howns, fun h => nomatch h⟩
  | succ i ih =>
    rw [anyRingBuffer] at h
    obtain ⟨a, -, h⟩ := bind_eq_some_iff.mp h
    obtain ⟨⟨ms₁, reserved₁⟩, hreserve, h⟩ := bind_eq_some_iff.mp h
    have hfirst := (reserveIn_reserves hgood howns hreserve).1
    dsimp only at h
    split at h
    · rename_i htrue
      cases h
      have hcurrent := hfirst.good.replace hfirst.good.mr (hfirst.good.rb.set_current i) rfl rfl
      have hplaced := hfirst.placed htrue
      exact ⟨hfirst.toKeeps.trans (hcurrent.mono (Set.empty_subset _)),
        hcurrent.toFrame.owns hfirst.owns, fun _ => ⟨hplaced.apart, hplaced.ready⟩⟩
    · exact hfirst.toKeeps.reserves (ih hfirst.good hfirst.owns h)

/-- A function that reserves data for a message, or gives its header back. -/
structure GetsData (ms ms' : FrMessageSet) (m : MsgPtr) (n : ℕ) (result : Option MsgPtr) :
    Prop extends Keeps {m} ms ms' where
  unstored : ∀ a, m ∉ ms'.rb.held a
  handed : ∀ x, result = some x → x = m ∧ Owns ms' m n ∧ Placed ms' m

theorem Reserves.getsData (h : Reserves ms ms' m size true) : GetsData ms ms' m size (some m) :=
  ⟨h.toKeeps, h.owns.unstored, fun _ hx => ⟨(some.inj hx).symm, h.owns, h.placed rfl⟩⟩

theorem Keeps.getsData {result : Option MsgPtr} (h₁ : Keeps {m} ms ms₁)
    (h₂ : GetsData ms₁ ms₂ m size result) : GetsData ms ms₂ m size result :=
  ⟨h₁.trans h₂.toKeeps, h₂.unstored, h₂.handed⟩

theorem cleanup_getsData (hgood : Good ms) (howns : Owns ms m size) :
    GetsData ms (cleanup ms m) m size none :=
  ⟨hgood.setMsg howns.unstored hgood.rb (fun _ => rfl) (fun h => nomatch h) fun _ => rfl,
    howns.unstored, fun _ h => nomatch h⟩

theorem allocRb_getsData (hgood : Good ms) (howns : Owns ms m size)
    (h : allocRb ms m = some (ms', result)) : GetsData ms ms' m size result.toOption := by
  rw [allocRb] at h
  obtain ⟨res, hdouble, h⟩ := bind_eq_some_iff.mp h
  split at h
  · cases h
    exact cleanup_getsData hgood howns
  rename_i rings
  obtain ⟨⟨ms₁, reserved⟩, hreserve, h⟩ := bind_eq_some_iff.mp h
  obtain ⟨hwf, hheld⟩ := hgood.rb.double hdouble
  have hring := hgood.replace hgood.mr hwf rfl (funext hheld)
  have hres := (hring.mono (Set.empty_subset _)).reserves
    (reserveCurrent_reserves hring.good (hring.toFrame.owns howns) hreserve)
  dsimp only at h
  split at h
  · rename_i htrue
    cases h
    subst htrue
    exact hres.getsData
  · cases h
    exact hres.toKeeps.getsData (cleanup_getsData hres.good hres.owns)

theorem bruteForce_getsData (hgood : Good ms) (howns : Owns ms m size)
    (h : bruteForce ms m = some (ms', result)) : GetsData ms ms' m size result.toOption := by
  rw [bruteForce] at h
  obtain ⟨⟨ms₁, reserved⟩, hany, h⟩ := bind_eq_some_iff.mp h
  have hres := anyRingBuffer_reserves hgood howns hany
  dsimp only at h
  split at h
  · rename_i htrue
    cases h
    subst htrue
    exact hres.getsData
  · split at h
    · cases h
      exact hres.toKeeps.getsData (cleanup_getsData hres.good hres.owns)
    · exact hres.toKeeps.getsData (allocRb_getsData hres.good hres.owns h)

theorem frMessageGetRingBuffer_getsData (hgood : Good ms) (howns : Owns ms m size) {cleanedUp : Bool}
    (h : frMessageGetRingBuffer ms m cleanedUp = some (ms', result)) :
    GetsData ms ms' m size result.toOption := by
  rw [frMessageGetRingBuffer] at h
  obtain ⟨⟨ms₁, reserved⟩, hcurrent, h⟩ := bind_eq_some_iff.mp h
  have h₁ := reserveCurrent_reserves hgood howns hcurrent
  dsimp only at h
  split at h
  · rename_i htrue
    cases h
    subst htrue
    exact h₁.getsData
  split at h
  · exact h₁.toKeeps.getsData (bruteForce_getsData h₁.good h₁.owns h)
  split at h
  · exact h₁.toKeeps.getsData (allocRb_getsData h₁.good h₁.owns h)
  obtain ⟨ms₂, hgc, h⟩ := bind_eq_some_iff.mp h
  obtain ⟨⟨ms₃, reserved⟩, hcurrent, h⟩ := bind_eq_some_iff.mp h
  have h₂ := frMessageGc_collects h₁.good hgc
  have h₃ := (h₁.toKeeps.trans (h₂.toKeeps.mono (Set.empty_subset _))).reserves
    (reserveCurrent_reserves h₂.good (h₂.toFrame.owns h₁.owns) hcurrent)
  split at h
  · rename_i htrue
    cases h
    subst htrue
    exact h₃.getsData
  · exact h₃.toKeeps.getsData (bruteForce_getsData h₃.good h₃.owns h)

end Data

section Calls

variable {result : Except MessageError MsgPtr} {n size : ℕ}

theorem cacheAlign_le (h : n + 63 < 2 ^ 64) : cacheAlign n ≤ n + 63 := by
  rw [cacheAlign, u64_of_lt h]
  omega

theorem le_cacheAlign (h : n + 63 < 2 ^ 64) : n ≤ cacheAlign n := by
  rw [cacheAlign, u64_of_lt h]
  omega

theorem cacheAlign_mod (n : ℕ) : cacheAlign n % 64 = 0 := Nat.mul_mod_left _ _

theorem cacheAlign_le_of_aligned (hn : n ≤ size) (hsize : size + 64 ≤ 2 ^ 63)
    (haligned : size % 64 = 0) : cacheAlign n ≤ size := by
  rw [cacheAlign, u64_of_lt (by omega)]
  omega

theorem nextSize_le {reserveSize : ℕ} (hn : n + 64 ≤ 2 ^ 63) (hreserve : reserveSize < 2 ^ 62) :
    nextSize n reserveSize + 64 ≤ 2 ^ 63 := by
  have hpadding := @le_cacheAlign n (by omega)
  have hpadding' := @cacheAlign_le n (by omega)
  have hu : u64 (cacheAlign n + 2 ^ 64 - n) = cacheAlign n - n := by
    unfold u64
    omega
  rw [nextSize, hu, u64_of_lt (by omega)]
  have := @cacheAlign_le (reserveSize + (cacheAlign n - n)) (by omega)
  omega

/-- The message was not in use before. It has a header of its own, and has
reserved data that no other message has. -/
structure Handed (ms ms' : FrMessageSet) (m : MsgPtr) : Prop where
  notUsed : (ms.msg m).status ≠ .used
  owns : Owns ms' m (ms'.msg m).rbSize
  placed : Placed ms' m

section

variable {msg : FrMessage} (h₁ : GetsHeader ms ms₁ (some m))

include h₁

/-- The size of the data is written to a new header. -/
theorem GetsHeader.owns (hused : msg.status = .used) (hsize : msg.rbSize + 64 ≤ 2 ^ 63)
    (haligned : msg.rbSize % 64 = 0) :
    Keeps {m} ms₁ (ms₁.setMsg m msg) ∧ Owns (ms₁.setMsg m msg) m msg.rbSize := by
  have hnew := h₁.new m rfl
  refine ⟨h₁.good.setMsg hnew.unstored h₁.good.rb (fun _ => rfl) (fun _ => hnew.used) (fun hdone =>
    nomatch hused.symm.trans hdone), ?_, ?_, hsize, haligned, hnew.unstored, hnew.after⟩
  · rw [setMsg_self]
    exact hused
  · rw [setMsg_self]

/-- Data is reserved for it. -/
theorem GetsHeader.handed {result : Option MsgPtr} (hset : Keeps {m} ms₁ (ms₁.setMsg m msg))
    (h₂ : GetsData (ms₁.setMsg m msg) ms₂ m size result) :
    Keeps ∅ ms ms₂ ∧ ∀ x, result = some x → Handed ms ms₂ x ∧ (ms₂.msg x).rbSize = size := by
  have hnew := h₁.new m rfl
  refine ⟨((h₁.toKeeps.mono (Set.empty_subset _)).trans (hset.trans h₂.toKeeps)).hide hnew.notUsed
    h₂.unstored, fun x hx => ?_⟩
  obtain ⟨rfl, howns, hplaced⟩ := h₂.handed x hx
  exact ⟨⟨hnew.notUsed, howns.size_eq.symm ▸ howns, hplaced⟩, howns.size_eq⟩

end

/-- A message is handed out. If memory is not cleared, it has to get data. -/
theorem frMessageReserve_handed (hgood : Good ms) {reserveSize : ℕ}
    (hpos : ms.ndebug = true → 0 < reserveSize)
    (h : frMessageReserve ms reserveSize = some (ms', result)) :
    Keeps ∅ ms ms' ∧
      ∀ m, result = .ok m → Handed ms ms' m ∧ reserveSize ≤ (ms'.msg m).rbSize := by
  rw [frMessageReserve] at h
  split at h
  · cases h
    exact ⟨Keeps.refl ∅ hgood, fun _ h => nomatch h⟩
  rename_i hmax
  obtain ⟨⟨ms₁, cleanedUp, res⟩, hget, h⟩ := bind_eq_some_iff.mp h
  have hheader := frMessageGetMessage_getsHeader hgood hget
  dsimp only at h
  split at h
  · cases h
    exact ⟨hheader.toKeeps, fun _ h => nomatch h⟩
  rename_i m
  have hnew := hheader.new m rfl
  split at h
  · -- a bare message
    rename_i hzero
    cases h
    refine ⟨hheader.toKeeps, fun x hx => ?_⟩
    cases hx
    obtain ⟨hrb, hsize⟩ := hnew.bare (by by_contra hndebug; simp_all)
    have hrb' : ∀ a, (ms'.msg m).rb ≠ some a := by simp [hrb]
    refine ⟨⟨hnew.notUsed, ?_, ⟨fun a ha => absurd ha (hrb' a), fun a ha => absurd ha (hrb' a)⟩⟩,
      by omega⟩
    rw [hsize]
    exact ⟨hnew.used, hsize, by decide, rfl, hnew.unstored, hnew.after⟩
  · have hle := hgood.max_le
    have halign := @cacheAlign_le reserveSize (by omega)
    have halign' := @le_cacheAlign reserveSize (by omega)
    obtain ⟨hset, howns⟩ := @GetsHeader.owns _ _ _
      { ms₁.msg m with rbSize := cacheAlign reserveSize } hheader hnew.used (by dsimp only; omega)
      (cacheAlign_mod _)
    obtain ⟨hkeeps, hhanded⟩ :=
      hheader.handed hset (frMessageGetRingBuffer_getsData hset.good howns h)
    refine ⟨hkeeps, fun x hx => ?_⟩
    rw [hx] at hhanded
    obtain ⟨hhanded, hsize⟩ := hhanded x rfl
    exact ⟨hhanded, hsize ▸ halign'⟩

/-- The data of a message is allocated where it was reserved. -/
theorem allocData_live (hgood : Good ms) (howns : Owns ms m size) (hplaced : Placed ms m)
    (hn : 0 < n) (hle : n ≤ size) (h : allocData ms m n = some (ms', result)) :
    result = .ok m ∧ Keeps {m} ms ms' ∧ Live ms' m ∧
      ∀ a r k, (ms.msg m).rb = some a → ms.rb.ring a = some r → Room r.rb (cacheAlign n) k →
        (ms'.msg m).rb = some a ∧ ∃ r', ms'.rb.ring a = some r' ∧ Room r'.rb 0 k := by
  have hsize := howns.size_le
  have halign := cacheAlign_le_of_aligned hle hsize howns.aligned
  have hpos : n ≤ cacheAlign n := le_cacheAlign (by omega)
  rw [allocData] at h
  obtain ⟨a, hrb, h⟩ := bind_eq_some_iff.mp h
  obtain ⟨⟨rings, res⟩, halloc, h⟩ := bind_eq_some_iff.mp h
  obtain ⟨r, hr, hdata, hready⟩ := hplaced.ready a hrb
  rw [howns.size_eq] at hready
  obtain ⟨rfl, r', hr', hroom⟩ := hgood.rb.alloc_ready hr (hready.mono halign) halloc
  obtain ⟨hheld, hother, -, -, hwf⟩ := hgood.rb.alloc_ok (by omega) halloc
  dsimp only at h
  obtain ⟨-, -, h⟩ := bind_eq_some_iff.mp h
  cases h
  have hrings : ∀ b, rings.held b = ms.rb.held b ∨
      (ms.msg m).rb = some b ∧ rings.held b = ms.rb.held b ++ [m] := by
    intro b
    by_cases hb : b = a
    · exact .inr ⟨hb ▸ hrb, by rw [hb, hheld]⟩
    · exact .inl (hother b hb)
  have hne : ∀ b, ∀ x ∈ ms.rb.held b, x ≠ m := by
    rintro b x hx rfl
    exact howns.unstored b hx
  refine ⟨rfl, hgood.write howns.unstored hgood.mr (hwf _ (fun b x hx =>
    block_congr (setMsg_of_ne _ _ (hne b x hx))) ?_) (fun _ => .inl rfl) hrings
    (fun _ => hgood.used m howns.used) (fun hdone => nomatch howns.used.symm.trans hdone)
    fun b _ => ⟨howns.used, Nat.lt_of_lt_of_le hn hpos, howns.after b⟩, ⟨?_, fun b hb => ?_⟩,
    fun b r₁ k hb hr₁ hk => ?_⟩
  · rw [block, setMsg_self, hdata]
    rfl
  · rw [setMsg_self]
    exact howns.used
  · rw [setMsg_self] at hb
    cases hrb.symm.trans hb
    change m ∈ rings.held a
    rw [hheld]
    simp
  · cases hrb.symm.trans hb
    cases hr.symm.trans hr₁
    rw [setMsg_self]
    exact ⟨hrb, r', hr', hroom k hk⟩

theorem allocReserved_live (hgood : Good ms) (howns : Owns ms m size) (hplaced : Placed ms m)
    (hle : n ≤ size) (h : allocReserved ms m n = some (ms', result)) :
    result = .ok m ∧ Keeps {m} ms ms' ∧ Live ms' m := by
  rw [allocReserved] at h
  obtain ⟨-, -, h⟩ := bind_eq_some_iff.mp h
  split at h
  · cases h
    refine ⟨rfl, hgood.setMsg howns.unstored hgood.rb (fun _ => rfl) (fun _ => howns.used)
      fun _ => rfl, ?_, fun a ha => ?_⟩
    · rw [setMsg_self]
      exact howns.used
    · rw [setMsg_self] at ha
      cases ha
  · rename_i hn
    obtain ⟨hres, hkeeps, hlive, -⟩ :=
      allocData_live hgood howns hplaced (Nat.pos_of_ne_zero hn) hle h
    exact ⟨hres, hkeeps, hlive⟩

/-- With room for it, the next message gets its data at once. -/
theorem moveLeftover_getsData {m₂ : MsgPtr} {r : Ring} (hgood : Good ms) (howns : Owns ms m₂ size)
    (hrb : (ms.msg m₂).rb = some a) (hr : ms.rb.ring a = some r) (hroom : Room r.rb 0 size)
    (h : moveLeftover ms m m₂ n = some (ms', result)) : GetsData ms ms' m₂ size result.toOption := by
  rw [moveLeftover, hrb, Option.bind_eq_bind, bind_some] at h
  obtain ⟨⟨ms₁, reserved⟩, hreserve, h⟩ := bind_eq_some_iff.mp h
  obtain ⟨hres, htrue⟩ := reserveIn_reserves hgood howns hreserve
  obtain rfl := htrue r hr hroom
  cases h
  exact hres.getsData

/-- The rule for `fr_message_alloc_reserve`: the packet has data and fits, and there
is room for the next one. -/
def Continues (ms : FrMessageSet) (m : MsgPtr) (n leftover reserveSize : ℕ) : Prop :=
  0 < n ∧ n ≤ (ms.msg m).rbSize ∧ reserveSize < 2 ^ 62 ∧
    if leftover = 0 then ms.ndebug = true → 0 < reserveSize
    else ∀ a ∈ (ms.msg m).rb, ∀ r ∈ ms.rb.ring a,
      Room r.rb (cacheAlign n) (nextSize n reserveSize)

/-- The message is allocated, and another one is handed out. -/
theorem frMessageAllocReserve_live (hgood : Good ms) (howns : Owns ms m (ms.msg m).rbSize)
    (hplaced : Placed ms m) {leftover reserveSize : ℕ}
    (hcont : Continues ms m n leftover reserveSize)
    (h : frMessageAllocReserve ms m n leftover reserveSize = some (ms', result)) :
    Keeps {m} ms ms' ∧ Live ms' m ∧ ∀ x, result = .ok x → Handed ms ms' x := by
  rw [frMessageAllocReserve] at h
  obtain ⟨-, -, h⟩ := bind_eq_some_iff.mp h
  obtain ⟨⟨ms₁, res⟩, halloc, h⟩ := bind_eq_some_iff.mp h
  obtain ⟨hpos, hle, hreserve, hcont⟩ := hcont
  obtain ⟨rfl, hkeeps, hlive, hroom⟩ := allocData_live hgood howns hplaced hpos hle halloc
  dsimp only at h
  have hnext : Keeps ∅ ms₁ ms' ∧ ∀ x, result = .ok x → Handed ms₁ ms' x := by
    split at h
    · rename_i hleftover
      rw [if_pos hleftover, ← hkeeps.ndebug] at hcont
      obtain ⟨hkeeps₂, hhanded⟩ := frMessageReserve_handed hkeeps.good hcont h
      exact ⟨hkeeps₂, fun x hx => (hhanded x hx).1⟩
    rename_i hleftover
    rw [if_neg hleftover] at hcont
    obtain ⟨⟨ms₂, cleanedUp, res⟩, hget, h⟩ := bind_eq_some_iff.mp h
    have hheader := frMessageGetMessage_getsHeader hkeeps.good hget
    dsimp only at h
    split at h
    · cases h
      exact ⟨hheader.toKeeps, fun _ h => nomatch h⟩
    rename_i m₂
    obtain ⟨a, r, hrb, hr⟩ : ∃ a r, (ms.msg m).rb = some a ∧ ms.rb.ring a = some r := by
      rw [allocData] at halloc
      obtain ⟨a, hrb, -⟩ := bind_eq_some_iff.mp halloc
      obtain ⟨r, hr, -⟩ := hplaced.ready a hrb
      exact ⟨a, r, hrb, hr⟩
    -- the collection leaves the room behind the message
    obtain ⟨hrb₁, r₁, hr₁, hroom₁⟩ :=
      hroom a r (nextSize n reserveSize) hrb hr (hcont a hrb r hr)
    obtain ⟨r₂, hr₂, hroom₂⟩ := hheader.room a r₁ (nextSize n reserveSize) hr₁
      ⟨m, by rw [← Rings.held_eq hr₁]; exact hlive.stored a hrb₁, hlive.used⟩ hroom₁
    have hrb₂ : (ms₂.msg m).rb = some a := by
      rw [hheader.msg m (Set.notMem_empty m) hlive.used]
      exact hrb₁
    have hn : n + 64 ≤ 2 ^ 63 := (Nat.add_le_add_right hle 64).trans howns.size_le
    obtain ⟨hset, howns₂⟩ := @GetsHeader.owns _ _ _ { ms₂.msg m₂ with
      rb := (ms₂.msg m).rb, dataSize := leftover, rbSize := nextSize n reserveSize } hheader
      (hheader.new m₂ rfl).used (nextSize_le hn hreserve) (cacheAlign_mod _)
    obtain ⟨hkeeps₂, hhanded⟩ := hheader.handed hset (moveLeftover_getsData hset.good howns₂
      (by rw [setMsg_self, hrb₂]) hr₂ hroom₂ h)
    refine ⟨hkeeps₂, fun x hx => ?_⟩
    rw [hx] at hhanded
    exact (hhanded x rfl).1
  obtain ⟨hkeeps₂, hhanded⟩ := hnext
  refine ⟨hkeeps.trans (hkeeps₂.mono (Set.empty_subset _)),
    hkeeps₂.toFrame.live (Set.notMem_empty m) hlive, fun x hx => ?_⟩
  refine ⟨fun hused => (hhanded x hx).notUsed ?_, (hhanded x hx).owns, (hhanded x hx).placed⟩
  by_cases hxm : x = m
  · rw [hxm]
    exact hlive.used
  · rw [hkeeps.msg x hxm hused]
    exact hused

end Calls

end FreeRadius.Message
