import FreeRadius.SessionState.Model

/-!
# What the calls of the state tree can do

One equation for each outcome of `state_entry_create` and of `fr_request_to_state`, and the two
outcomes of a look-up.
-/

namespace FreeRadius.SessionState

open List

variable {P D : Type}

section Create

def kept (now : ℤ) (t : Tree P D) : List (Entry P D) :=
  t.toExpire.dropWhile fun entry => entry.cleanup < now

theorem expired_append_kept (now : ℤ) (t : Tree P D) : expired now t ++ kept now t = t.toExpire :=
  takeWhile_append_dropWhile

theorem kept_subset (now : ℤ) (t : Tree P D) : kept now t ⊆ t.toExpire :=
  dropWhile_subset _

/-- The tree after a clean-up, with another counter and another next number. -/
def cleaned (now : ℤ) (t : Tree P D) (used : UInt32) (id : ℕ) : Tree P D :=
  { t with
    id := id
    timedOut := t.timedOut + (expired now t).length
    usedSessions := used
    toExpire := kept now t }

theorem foldl_stateEntryFree (l : List (Entry P D)) (t : Tree P D) :
    l.foldl (fun t _ => stateEntryFree t) t =
      { t with usedSessions := t.usedSessions - UInt32.ofNat l.length } := by
  induction l generalizing t with
  | nil => simp
  | cons e l ih =>
    rw [foldl_cons, ih]
    have hone : t.usedSessions - 1 - UInt32.ofNat l.length =
        t.usedSessions - UInt32.ofNat (l.length + 1) := by
      rw [UInt32.ofNat_add]
      grind
    simp [stateEntryFree, hone]

/-- The entry that `state_entry_create` makes out of a value. -/
def newEntry (now : ℤ) (t : Tree P D) (state : StateValue) (tries : ℕ) : Entry P D :=
  { id := t.id, state := xorContext t.contextId state, seqStart := 0,
    cleanup := now + t.timeout, tries := tries, ctx := none, data := [], thawed := none }

/-- The counter when a new entry is about to be inserted. -/
def charged (now : ℤ) (t : Tree P D) (old : Option (Entry P D)) : UInt32 :=
  match old with
  | none => t.usedSessions + 1 - UInt32.ofNat (expired now t).length
  | some _ => t.usedSessions - UInt32.ofNat (expired now t).length - 1

variable (h : Host) (now : ℤ) (rand : StateValue) (t : Tree P D) (reply : List (List UInt8))

theorem stateEntryCreate_eq (old : Option (Entry P D))
    (hroom : old = none → t.usedSessions ≠ t.maxSessions) :
    stateEntryCreate h now rand t reply old =
      if (kept now t).any fun e => decide
          (e.state = xorContext t.contextId (newState h rand t.serverId reply old).1) then
        (.error .insertionFailed, [], cleaned now t (charged now t old - 1) (t.id + 1))
      else
        (.ok (newEntry now t (newState h rand t.serverId reply old).1
            (newState h rand t.serverId reply old).2.1),
          (newState h rand t.serverId reply old).2.2,
          cleaned now t (charged now t old) (t.id + 1)) := by
  cases old with
  | none =>
    have hne : t.usedSessions ≠ t.maxSessions := hroom rfl
    simp only [stateEntryCreate, reserve, foldl_stateEntryFree]
    simp [hne, cleaned, kept, charged, newEntry, stateEntryFree]
  | some o =>
    simp only [stateEntryCreate, reserve, foldl_stateEntryFree]
    simp [cleaned, kept, charged, newEntry, stateEntryFree]

end Create

section Save

variable (h : Host) (now : ℤ) (rand : StateValue) (t : Tree P D) (r : Request P D)

/-- The value, the `tries` and the reply of the entry that a request is saved in. -/
def nextState : StateValue × ℕ × List (List UInt8) :=
  newState h rand t.serverId r.replyStates r.attached

/-- Another entry has the value already. -/
def Taken : Prop :=
  ∃ e ∈ kept now t, e.state = xorContext t.contextId (nextState h rand t r).1

/-- The entry that a request is saved in. -/
def savedEntry : Entry P D :=
  { newEntry now t (nextState h rand t r).1 (nextState h rand t r).2.1 with
    seqStart := r.seqStart, ctx := some r.sessionState, data := r.persistent }

theorem frRequestToState_idle (hidle : r.idle = true) :
    frRequestToState h now rand t r = (.ok (), t, { r with attached := none }) := by
  rw [frRequestToState, if_pos hidle]

variable {t r}

/-- A request that has something to save is refused, for lack of room or because another entry has
its value, or it is saved. -/
theorem frRequestToState_cases (hidle : r.idle = false) :
    ((r.attached = none ∧ t.usedSessions = t.maxSessions) ∧
      frRequestToState h now rand t r = (.error .atMaximum,
        cleaned now t (t.usedSessions - UInt32.ofNat (expired now t).length) t.id,
        { r with attached := none })) ∨
    (r.attached = none → t.usedSessions ≠ t.maxSessions) ∧
      (Taken h now rand t r ∧ frRequestToState h now rand t r = (.error .insertionFailed,
          cleaned now t (charged now t r.attached - 1) (t.id + 1),
          { r with attached := none, replyStates := [] }) ∨
        ¬Taken h now rand t r ∧ frRequestToState h now rand t r = (.ok (),
          { cleaned now t (charged now t r.attached) (t.id + 1) with
            toExpire := kept now t ++ [savedEntry h now rand t r] },
          { r with
            attached := none, replyStates := (nextState h rand t r).2.2
            sessionState := [], persistent := [] })) := by
  by_cases hfull : r.attached = none ∧ t.usedSessions = t.maxSessions
  · refine .inl ⟨hfull, ?_⟩
    simp [frRequestToState, hidle, hfull, stateEntryCreate, reserve, foldl_stateEntryFree, cleaned, kept]
  have hroom : r.attached = none → t.usedSessions ≠ t.maxSessions := fun hnew heq => hfull ⟨hnew, heq⟩
  have htaken : ((kept now t).any fun e => decide (e.state =
      xorContext t.contextId (newState h rand t.serverId r.replyStates r.attached).1)) = true ↔
      Taken h now rand t r := by
    simp [Taken, nextState]
  refine .inr ⟨hroom, ?_⟩
  rw [frRequestToState, hidle, stateEntryCreate_eq _ _ _ _ _ _ hroom]
  by_cases hany : Taken h now rand t r
  · rw [if_pos (htaken.mpr hany)]
    exact .inl ⟨hany, rfl⟩
  · rw [if_neg fun h => hany (htaken.mp h)]
    exact .inr ⟨hany, rfl⟩

end Save

section Find

variable {h : Host} {t : Tree P D} {octets : List UInt8}

def unlinked (h : Host) (t : Tree P D) (octets : List UInt8) : Tree P D :=
  { t with toExpire := t.toExpire.eraseP fun e =>
      decide (e.state = xorContext t.contextId (toState h octets)) }

theorem stateEntryFindAndUnlink_cases (h : Host) (t : Tree P D) (octets : List UInt8) :
    (stateEntryFindAndUnlink h t octets = (none, t) ∧
      ∀ e ∈ t.toExpire, e.state ≠ xorContext t.contextId (toState h octets)) ∨
    ∃ e ∈ t.toExpire, e.state = xorContext t.contextId (toState h octets) ∧
      stateEntryFindAndUnlink h t octets = (some e, unlinked h t octets) := by
  unfold stateEntryFindAndUnlink
  dsimp only
  split
  · rename_i hfind
    refine .inl ⟨rfl, fun e he hstate => ?_⟩
    exact List.find?_eq_none.mp hfind e he (decide_eq_true hstate)
  · rename_i e hfind
    have hstate := find?_some hfind
    exact .inr ⟨e, mem_of_find?_eq_some hfind, of_decide_eq_true hstate, rfl⟩

theorem length_unlinked {e : Entry P D} (he : e ∈ t.toExpire)
    (hstate : e.state = xorContext t.contextId (toState h octets)) :
    (unlinked h t octets).toExpire.length + 1 = t.toExpire.length := by
  have hpos : 0 < t.toExpire.length := length_pos_of_mem he
  rw [unlinked, length_eraseP_of_mem he (decide_eq_true hstate)]
  omega

end Find

end FreeRadius.SessionState
