import FreeRadius.SessionState.Calls

/-!
# Counting session state entries

`used_sessions` against the entries that exist. The counter is right after a step exactly when the
step is not a call of `fr_request_to_state` for a request that has an entry attached, since such an
entry is either freed twice or lost.
-/

namespace FreeRadius.SessionState

open List Option

variable {P D : Type}

section Counting

/-- The entries that exist: in the tree, or attached to a request. -/
def System.existing (s : System P D) : ℕ :=
  s.tree.toExpire.length + s.requests.countP fun r => r.attached.isSome

/-- `used_sessions` is the number of the entries that exist, and within the limit. -/
structure Exact (s : System P D) : Prop where
  used : s.tree.usedSessions.toNat = s.existing
  le_max : s.existing ≤ s.tree.maxSessions.toNat

/-- No entry that is in the tree has been taken by a request. -/
def Frozen (s : System P D) : Prop := ∀ e ∈ s.tree.toExpire, e.thawed = none

theorem toNat_sub_ofNat {u : UInt32} {n : ℕ} (hn : n ≤ u.toNat) :
    (u - UInt32.ofNat n).toNat = u.toNat - n := by
  have hu : u.toNat < 2 ^ 32 := u.toNat_lt
  rw [UInt32.toNat_sub, UInt32.toNat_ofNat']
  omega

theorem toNat_add_one {u v : UInt32} (hle : u.toNat ≤ v.toNat) (hne : u ≠ v) :
    (u + 1).toNat = u.toNat + 1 := by
  have hv : v.toNat < 2 ^ 32 := v.toNat_lt
  have hne' : u.toNat ≠ v.toNat := fun he => hne (UInt32.toNat_inj.mp he)
  rw [UInt32.toNat_add, UInt32.toNat_one]
  omega

theorem toNat_sub_one_ne (u : UInt32) : (u - 1).toNat ≠ u.toNat := by
  rw [UInt32.toNat_sub, UInt32.toNat_one]
  omega

theorem length_expired_add_kept (now : ℤ) (t : Tree P D) :
    (expired now t).length + (kept now t).length = t.toExpire.length := by
  rw [← length_append, expired_append_kept]

variable {s : System P D} {k : ℕ} {r : Request P D}

theorem existing_update (hk : s.requests[k]? = some r) (t' : Tree P D) (r' : Request P D) :
    (s.update k (t', r')).existing + s.tree.toExpire.length + r.attached.isSome.toNat =
      s.existing + t'.toExpire.length + r'.attached.isSome.toNat := by
  obtain ⟨hlt, hget⟩ := List.getElem?_eq_some_iff.mp hk
  have hcount : r.attached.isSome.toNat ≤ s.requests.countP fun r => r.attached.isSome := by
    cases hr : r.attached.isSome with
    | false => exact Nat.zero_le _
    | true => exact List.countP_pos_iff.mpr ⟨r, mem_of_getElem? hk, hr⟩
  have hset : (s.requests.set k r').countP (fun r => r.attached.isSome) +
      r.attached.isSome.toNat =
      (s.requests.countP fun r => r.attached.isSome) + r'.attached.isSome.toNat := by
    rw [countP_set hlt, hget]
    generalize (s.requests.countP fun r => r.attached.isSome) = c at hcount ⊢
    cases hr : r.attached.isSome <;> cases r'.attached.isSome <;>
      simp only [hr, Bool.toNat_false, Bool.toNat_true, if_true, if_false, Bool.false_eq_true]
        at hcount ⊢ <;> omega
  simp only [System.existing, System.update]
  omega

theorem existing_finish (hk : s.requests[k]? = some r) (t' : Tree P D) :
    (System.mk t' (s.requests.eraseIdx k)).existing + s.tree.toExpire.length +
      r.attached.isSome.toNat = s.existing + t'.toExpire.length := by
  obtain ⟨hlt, hget⟩ := List.getElem?_eq_some_iff.mp hk
  have hcount : r.attached.isSome.toNat + (s.requests.eraseIdx k).countP (fun r => r.attached.isSome) =
      s.requests.countP fun r => r.attached.isSome := by
    have hperm := (getElem_cons_eraseIdx_perm hlt).countP_eq fun r => r.attached.isSome
    rw [countP_cons, hget] at hperm
    rw [← hperm]
    cases r.attached.isSome
    · simp
    · simp [Nat.add_comm]
  simp only [System.existing]
  omega

end Counting

section Calls

variable {h : Host} {s : System P D} {k : ℕ} {r : Request P D}

/-- The counter before the insertion, for a session that is new and finds room. -/
theorem Exact.charged_none (hs : Exact s) (now : ℤ)
    (hne : s.tree.usedSessions ≠ s.tree.maxSessions) :
    (charged now s.tree none).toNat = s.existing + 1 - (expired now s.tree).length := by
  have hle : s.tree.usedSessions.toNat ≤ s.tree.maxSessions.toNat := hs.used ▸ hs.le_max
  have hsum := toNat_add_one hle hne
  have hlen := length_expired_add_kept now s.tree
  have hn : (expired now s.tree).length ≤ (s.tree.usedSessions + 1).toNat := by
    rw [hsum, hs.used, System.existing]
    omega
  rw [charged, toNat_sub_ofNat hn, hsum, hs.used]

theorem Exact.toNat_sub_expired (hs : Exact s) (now : ℤ) :
    (s.tree.usedSessions - UInt32.ofNat (expired now s.tree).length).toNat =
      s.existing - (expired now s.tree).length := by
  have hlen := length_expired_add_kept now s.tree
  rw [toNat_sub_ofNat (by rw [hs.used, System.existing]; omega), hs.used]

/-- Whether the counter is right after a call, in terms of the system before it. -/
theorem exact_update_iff (hk : s.requests[k]? = some r) {t' : Tree P D} {r' : Request P D} :
    Exact (s.update k (t', r')) ↔
      t'.usedSessions.toNat + s.tree.toExpire.length + r.attached.isSome.toNat =
        s.existing + t'.toExpire.length + r'.attached.isSome.toNat ∧
      t'.usedSessions.toNat ≤ t'.maxSessions.toNat := by
  have he := existing_update hk t' r'
  rw [← he]
  constructor
  · rintro ⟨hused, hle⟩
    rw [← hused] at hle ⊢
    exact ⟨rfl, hle⟩
  · rintro ⟨hsum, hle⟩
    have hused : t'.usedSessions.toNat = (s.update k (t', r')).existing := by omega
    exact ⟨hused, hused ▸ hle⟩

section

variable (hk : s.requests[k]? = some r) (hs : Exact s)

include hk hs

/-- A new session, whether it finds room or not, leaves the counter right. -/
theorem exact_newSession (now : ℤ) (rand : StateValue) (hr : r.attached = none) :
    Exact (s.update k (frRequestToState h now rand s.tree r).2) := by
  have hused := hs.used
  have hmax := hs.le_max
  have hlen := length_expired_add_kept now s.tree
  have hexisting : s.tree.toExpire.length ≤ s.existing := Nat.le_add_right _ _
  cases hidle : r.idle with
  | true =>
    rw [frRequestToState_idle _ _ _ _ _ hidle, exact_update_iff hk]
    simp only [hr]
    omega
  | false =>
    obtain ⟨⟨-, hfull⟩, heq⟩ | ⟨hroom, hcase⟩ := frRequestToState_cases h now rand (t := s.tree) hidle
    · have hsub := hs.toNat_sub_expired now
      rw [heq, exact_update_iff hk]
      simp only [hr, cleaned]
      omega
    have hcharged := hs.charged_none now (hroom hr)
    have hlt : s.existing < s.tree.maxSessions.toNat :=
      lt_of_le_of_ne hmax fun he => hroom hr (UInt32.toNat_inj.mp (hused.trans he))
    obtain ⟨-, heq⟩ | ⟨-, heq⟩ := hcase
    · have hsub := toNat_sub_ofNat (u := charged now s.tree none) (n := 1) (by omega)
      rw [heq, exact_update_iff hk]
      simp only [hr, cleaned]
      change (charged now s.tree none - 1).toNat = _ at hsub
      omega
    · rw [heq, exact_update_iff hk]
      simp only [hr, cleaned, length_append, length_singleton]
      omega

/-- A later round never does: the entry that is used again is freed once more than it is counted,
and one that is not used again is counted although nothing refers to it. -/
theorem not_exact_laterRound (now : ℤ) (rand : StateValue) {o : Entry P D}
    (hr : r.attached = some o) : ¬ Exact (s.update k (frRequestToState h now rand s.tree r).2) := by
  have hused := hs.used
  have hlen := length_expired_add_kept now s.tree
  have hpos : s.tree.toExpire.length + 1 ≤ s.existing := by
    have hcount : 0 < s.requests.countP fun r => r.attached.isSome :=
      countP_pos_iff.mpr ⟨r, mem_of_getElem? hk, by rw [hr]; rfl⟩
    rw [System.existing]
    omega
  have hsub := hs.toNat_sub_expired now
  obtain ⟨u, hu⟩ : ∃ u, u = s.tree.usedSessions - UInt32.ofNat (expired now s.tree).length := ⟨_, rfl⟩
  have hcharged : charged now s.tree r.attached = u - 1 := by rw [hr, hu, charged]
  rw [← hu] at hsub
  have hone : (u - 1).toNat = u.toNat - 1 := toNat_sub_ofNat (n := 1) (by omega)
  cases hidle : r.idle with
  | true =>
    rw [frRequestToState_idle _ _ _ _ _ hidle, exact_update_iff hk]
    simp only [hr, isSome_some, isSome_none, Bool.toNat_true, Bool.toNat_false]
    omega
  | false =>
    obtain ⟨⟨hnew, -⟩, -⟩ | ⟨-, ⟨-, heq⟩ | ⟨-, heq⟩⟩ :=
      frRequestToState_cases h now rand (t := s.tree) hidle
    · cases hr.symm.trans hnew
    · have hne := toNat_sub_one_ne (u - 1)
      rw [heq, exact_update_iff hk]
      simp only [hr, cleaned, isSome_some, isSome_none, Bool.toNat_true,
        Bool.toNat_false]
      rw [← hr, hcharged]
      omega
    · rw [heq, exact_update_iff hk]
      simp only [hr, cleaned, length_append, length_singleton, isSome_some,
        isSome_none, Bool.toNat_true, Bool.toNat_false]
      rw [← hr, hcharged]
      omega

theorem exact_discard : Exact (s.update k (frStateDiscard h s.tree r)) := by
  have hused := hs.used
  have hmax := hs.le_max
  unfold frStateDiscard
  split
  · exact (exact_update_iff hk).mpr ⟨by omega, by omega⟩
  rename_i vp hvp
  obtain ⟨hnone, -⟩ | ⟨e, he, hstate, hsome⟩ := stateEntryFindAndUnlink_cases h s.tree vp
  · rw [hnone]
    exact (exact_update_iff hk).mpr ⟨by omega, by omega⟩
  have hlen := length_unlinked he hstate
  have hexisting : s.tree.toExpire.length ≤ s.existing := Nat.le_add_right _ _
  have hone : (s.tree.usedSessions - 1).toNat = s.tree.usedSessions.toNat - 1 :=
    toNat_sub_ofNat (n := 1) (by omega)
  rw [hsome, exact_update_iff hk]
  simp only [stateEntryFree, unlinked] at hlen ⊢
  omega

theorem exact_restore (hfrozen : Frozen s) :
    Exact (s.update k (frStateToRequest h s.tree r).2) := by
  have hused := hs.used
  have hmax := hs.le_max
  unfold frStateToRequest
  split
  · split
    · exact (exact_update_iff hk).mpr ⟨by dsimp only; omega, by omega⟩
    · exact (exact_update_iff hk).mpr ⟨by omega, by omega⟩
  rename_i vp hvp
  obtain ⟨hnone, -⟩ | ⟨e, he, hstate, hsome⟩ := stateEntryFindAndUnlink_cases h s.tree vp
  · rw [hnone]
    exact (exact_update_iff hk).mpr ⟨by omega, by omega⟩
  have hlen := length_unlinked he hstate
  have hexisting : s.tree.toExpire.length ≤ s.existing := Nat.le_add_right _ _
  have hone : (s.tree.usedSessions - 1).toNat = s.tree.usedSessions.toNat - 1 :=
    toNat_sub_ofNat (n := 1) (by omega)
  simp only [hsome, hfrozen e he, isSome_none, Bool.false_eq_true, if_false]
  rw [exact_update_iff hk]
  -- an entry that is replaced on the request is freed, and counted off
  cases hr : r.attached.isSome with
  | false =>
    simp only [unlinked, isSome_some, Bool.toNat_true, Bool.toNat_false, if_false,
      Bool.false_eq_true] at hlen ⊢
    omega
  | true =>
    simp only [unlinked, stateEntryFree, isSome_some, Bool.toNat_true, if_true] at hlen ⊢
    omega

theorem exact_finish : Exact (s.step h (.finish k)) := by
  have hused := hs.used
  have hmax := hs.le_max
  have he := existing_finish hk
  simp only [System.step, hk]
  cases hr : r.attached.isSome with
  | false =>
    specialize he s.tree
    rw [hr, Bool.toNat_false] at he
    exact ⟨by simp only [Bool.false_eq_true, if_false]; omega,
      by simp only [Bool.false_eq_true, if_false]; omega⟩
  | true =>
    specialize he (stateEntryFree s.tree)
    rw [hr, Bool.toNat_true] at he
    have hone : (s.tree.usedSessions - 1).toNat = s.tree.usedSessions.toNat - 1 :=
      toNat_sub_ofNat (n := 1) (by rw [stateEntryFree] at he; dsimp only at he; omega)
    simp only [if_true]
    simp only [stateEntryFree] at he ⊢
    exact ⟨by dsimp only; omega, by dsimp only; omega⟩

end

end Calls

section Steps

variable {h : Host} {s : System P D}

/-- A step that is not a later round of a session. -/
def Accounted (s : System P D) : Step P D → Prop
  | .requestToState k _ _ => ∀ r, s.requests[k]? = some r → r.attached = none
  | _ => True

theorem exact_step_iff (hs : Exact s) (hfrozen : Frozen s) (step : Step P D) :
    Exact (s.step h step) ↔ Accounted s step := by
  cases step with
  | requestToState k now rand =>
    rw [Accounted, System.step]
    rcases hk : s.requests[k]? with _ | r
    · exact ⟨fun _ _ hr => (nomatch hr), fun _ => hs⟩
    cases hr : r.attached with
    | none =>
      refine ⟨fun _ r' hr' => ?_, fun _ => exact_newSession hk hs now rand hr⟩
      cases hr'
      exact hr
    | some o =>
      refine ⟨fun hexact => absurd hexact (not_exact_laterRound hk hs now rand hr), fun hnone => ?_⟩
      exact absurd (hnone r rfl) (by rw [hr]; nofun)
  | stateToRequest k =>
    refine iff_of_true ?_ trivial
    rw [System.step]
    split
    · exact hs
    · next r hk => exact exact_restore hk hs hfrozen
  | discard k =>
    refine iff_of_true ?_ trivial
    rw [System.step]
    split
    · exact hs
    · next r hk => exact exact_discard hk hs
  | arrive r =>
    refine iff_of_true ?_ trivial
    have hsame : (s.step h (.arrive r)).existing = s.existing := by
      simp [System.step, System.existing]
    exact ⟨hs.used.trans hsame.symm, hsame ▸ hs.le_max⟩
  | process k r' =>
    refine iff_of_true ?_ trivial
    rw [System.step]
    split
    · exact hs
    · next r hk => exact (exact_update_iff hk).mpr ⟨by rw [hs.used], hs.used ▸ hs.le_max⟩
  | finish k =>
    refine iff_of_true ?_ trivial
    cases hk : s.requests[k]? with
    | none => simpa only [System.step, hk] using hs
    | some r => exact exact_finish hk hs

variable {t : Tree P D} {r : Request P D} {e : Entry P D}

theorem mem_toExpire_save {now : ℤ} {rand : StateValue}
    (he : e ∈ (frRequestToState h now rand t r).2.1.toExpire) :
    e ∈ t.toExpire ∨ e.thawed = none := by
  cases hidle : r.idle with
  | true =>
    rw [frRequestToState_idle _ _ _ _ _ hidle] at he
    exact .inl he
  | false =>
    obtain ⟨-, heq⟩ | ⟨-, ⟨-, heq⟩ | ⟨-, heq⟩⟩ := frRequestToState_cases h now rand (t := t) hidle
    · rw [heq] at he
      exact .inl (kept_subset now t he)
    · rw [heq] at he
      exact .inl (kept_subset now t he)
    · rw [heq] at he
      obtain hkept | hnew := mem_append.mp he
      · exact .inl (kept_subset now t hkept)
      · rw [mem_singleton.mp hnew]
        exact .inr rfl

theorem toExpire_discard_subset : (frStateDiscard h t r).1.toExpire ⊆ t.toExpire := by
  unfold frStateDiscard
  split
  · exact List.Subset.refl _
  rename_i vp hvp
  obtain ⟨hnone, -⟩ | ⟨e, -, -, hsome⟩ := stateEntryFindAndUnlink_cases h t vp
  · rw [hnone]
    exact List.Subset.refl _
  · rw [hsome]
    exact eraseP_subset

theorem toExpire_restore_subset : (frStateToRequest h t r).2.1.toExpire ⊆ t.toExpire := by
  unfold frStateToRequest
  split
  · exact List.Subset.refl _
  rename_i vp hvp
  obtain ⟨hnone, -⟩ | ⟨e, -, -, hsome⟩ := stateEntryFindAndUnlink_cases h t vp
  · rw [hnone]
    exact List.Subset.refl _
  rw [hsome]
  dsimp only
  split
  · exact eraseP_subset
  dsimp only
  split
  · exact eraseP_subset
  · exact eraseP_subset

/-- What a step leaves linked was linked before, or is a new entry that nobody has taken. -/
theorem mem_toExpire_step (step : Step P D) (he : e ∈ (s.step h step).tree.toExpire) :
    e ∈ s.tree.toExpire ∨ e.thawed = none := by
  cases step with
  | requestToState k now rand =>
    rw [System.step] at he
    split at he
    · exact .inl he
    · exact mem_toExpire_save he
  | stateToRequest k =>
    rw [System.step] at he
    split at he
    · exact .inl he
    · exact .inl (toExpire_restore_subset he)
  | discard k =>
    rw [System.step] at he
    split at he
    · exact .inl he
    · exact .inl (toExpire_discard_subset he)
  | arrive r => exact .inl he
  | process k r' =>
    rw [System.step] at he
    split at he
    · exact .inl he
    · exact .inl he
  | finish k =>
    rw [System.step] at he
    split at he
    · exact .inl he
    dsimp only at he
    split at he
    · exact .inl he
    · exact .inl he

theorem frozen_step (hfrozen : Frozen s) (step : Step P D) : Frozen (s.step h step) := by
  intro e he
  obtain hold | hnew := mem_toExpire_step step he
  · exact hfrozen e hold
  · exact hnew

end Steps

section Runs

/-- A new session is refused for lack of room exactly when as many entries exist as may. -/
def RoomExact (h : Host) (s : System P D) : Prop :=
  ∀ (r : Request P D) (now : ℤ) (rand : StateValue), r.attached = none → r.idle = false →
    ((frRequestToState h now rand s.tree r).1 = .error .atMaximum ↔
      s.existing = s.tree.maxSessions.toNat)

theorem Exact.roomExact {s : System P D} (hs : Exact s) (h : Host) : RoomExact h s := by
  intro r now rand hnew hidle
  rw [← hs.used, UInt32.toNat_inj]
  obtain ⟨⟨-, hfull⟩, heq⟩ | ⟨hroom, ⟨-, heq⟩ | ⟨-, heq⟩⟩ :=
    frRequestToState_cases h now rand (t := s.tree) hidle
  · rw [heq]
    exact iff_of_true rfl hfull
  · rw [heq]
    exact iff_of_false nofun (hroom hnew)
  · rw [heq]
    exact iff_of_false nofun (hroom hnew)

theorem exact_run_iff (h : Host) {s : System P D} (hs : Exact s) (hfrozen : Frozen s)
    (steps : List (Step P D)) :
    (∀ n ≤ steps.length, Exact (s.run h (steps.take n))) ↔
      ∀ n step, steps[n]? = some step → Accounted (s.run h (steps.take n)) step := by
  induction steps generalizing s with
  | nil => simpa [System.run] using hs
  | cons step steps ih =>
    have hstep := exact_step_iff (h := h) hs hfrozen step
    constructor
    · intro hall n
      have hnext : Exact (s.step h step) := hall 1 (by simp)
      cases n with
      | zero =>
        intro step' hget
        cases hget
        exact hstep.mp hnext
      | succ n =>
        refine (ih hnext (frozen_step hfrozen step)).mp (fun m hm => ?_) n
        exact hall (m + 1) (Nat.succ_le_succ hm)
    · intro hall n hn
      have hnext : Exact (s.step h step) := hstep.mpr (hall 0 step rfl)
      cases n with
      | zero => exact hs
      | succ n =>
        refine (ih hnext (frozen_step hfrozen step)).mpr (fun m step' hget => ?_) n
          (Nat.le_of_succ_le_succ hn)
        exact hall (m + 1) step' hget

/-- The counter is right after every call of a run, within the limit, and refuses new sessions for
lack of room exactly when it should, if and only if no call of the run saves a request that has an
entry attached. -/
theorem usedSessions_exact_iff (h : Host) (maxSessions : UInt32) (timeout : ℤ) (serverId : UInt8)
    (contextId : Fin 4 → UInt8) (steps : List (Step P D)) :
    (∀ n ≤ steps.length,
      Exact ((System.init maxSessions timeout serverId contextId).run h (steps.take n)) ∧
      RoomExact h ((System.init maxSessions timeout serverId contextId).run h (steps.take n))) ↔
    ∀ n step, steps[n]? = some step →
      Accounted ((System.init maxSessions timeout serverId contextId).run h (steps.take n)) step := by
  have hfrozen : Frozen (System.init maxSessions timeout serverId contextId : System P D) := nofun
  rw [← exact_run_iff h (by exact ⟨rfl, Nat.zero_le _⟩) hfrozen steps]
  constructor
  · intro hall n hn
    exact (hall n hn).1
  · intro hall n hn
    exact ⟨hall n hn, (hall n hn).roomExact h⟩

/-- A session of two rounds: it is saved, restored to a second request, and saved again. -/
theorem usedSessions_secondRound :
    let h : Host := ⟨fun _ _ => 0, fun _ => 0⟩
    let first : StateValue := stamp h 0 0 fun _ => 0
    let s : System Unit Unit := (System.init 8 0 0 fun _ => 0).run h
      [.arrive (Request.arriving [] [()]), .requestToState 0 0 fun _ => 0,
        .arrive (Request.arriving [List.ofFn first] []), .stateToRequest 1,
        .requestToState 1 0 fun _ => 0]
    s.existing = 1 ∧ s.tree.usedSessions = 0 ∧ ¬ Exact s := by
  intro h first s
  have hexisting : s.existing = 1 := by decide
  have hused : s.tree.usedSessions = 0 := by decide
  refine ⟨hexisting, hused, fun hexact => ?_⟩
  have heq := hexact.used
  rw [hexisting, hused] at heq
  exact absurd heq (by decide)

end Runs

end FreeRadius.SessionState
