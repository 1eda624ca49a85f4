import FreeRadius.SessionState.Model
import Mathlib.Data.List.GetD
import Mathlib.Tactic.FinCases

/-!
# The values of a session

The value of a round is made out of the stored value of the round before it: the exchange of the
context is undone or done again, and the fields of the round are written over. The first byte of a
value is the number of its round, and the bytes that no round writes tell the sessions apart.
-/

namespace FreeRadius.SessionState

section Context

variable (c : Fin 4 → UInt8)

@[simp] theorem xorContext_xorContext (s : StateValue) : xorContext c (xorContext c s) = s := by
  funext i
  unfold xorContext
  split
  · rw [UInt8.xor_assoc, UInt8.xor_self, UInt8.xor_zero]
  · rfl

theorem xorContext_injective : Function.Injective (xorContext c) :=
  Function.LeftInverse.injective (xorContext_xorContext c)

end Context

/-- A `State` attribute of sixteen bytes stands for itself. -/
@[simp] theorem toState_ofFn (h : Host) (s : StateValue) : toState h (List.ofFn s) = s := by
  funext i
  have hi : i.val < (List.ofFn s).length := by
    rw [List.length_ofFn]
    exact i.isLt
  rw [toState, if_neg (by rw [List.length_ofFn]; decide), List.getD_eq_getElem _ _ hi,
    List.getElem_ofFn]

section Chain

variable (h : Host) (c : Fin 4 → UInt8) (serverId : UInt8)

/-- The value of a round of the session whose first value is given. -/
def chain (first : StateValue) : ℕ → StateValue
  | 0 => first
  | k + 1 => stamp h serverId (k + 1) (xorContext c (chain first k))

/-- A value that `state_entry_create` makes for a new session. -/
def IsFirst (s : StateValue) : Prop := stamp h serverId 0 s = s

variable {h c serverId}

theorem stamp_stamp (k : ℕ) (s : StateValue) :
    stamp h serverId k (stamp h serverId k s) = stamp h serverId k s := by
  funext i
  fin_cases i <;> rfl

theorem stamp_zero_isFirst (s : StateValue) : IsFirst h serverId (stamp h serverId 0 s) :=
  stamp_stamp 0 s

variable {first first' : StateValue} {k : ℕ}

theorem stamp_chain (hfirst : IsFirst h serverId first) (k : ℕ) :
    stamp h serverId k (chain h c serverId first k) = chain h c serverId first k := by
  cases k with
  | zero => exact hfirst
  | succ k => exact stamp_stamp (k + 1) _

/-- The fields of a round do not hide what the round before it left in the other bytes. -/
theorem stamp_eq_of_next {s s' : StateValue}
    (heq : stamp h serverId (k + 1) (xorContext c s) = stamp h serverId (k + 1) (xorContext c s')) :
    stamp h serverId k s = stamp h serverId k s' := by
  have hat : ∀ i, stamp h serverId (k + 1) (xorContext c s) i =
      stamp h serverId (k + 1) (xorContext c s') i := congrFun heq
  have hr0 : s 2 = s' 2 := hat 2
  have hctx4 : s 4 ^^^ c 0 = s' 4 ^^^ c 0 := hat 4
  have hctx5 : s 5 ^^^ c 1 = s' 5 ^^^ c 1 := hat 5
  have hctx6 : s 6 ^^^ c 2 = s' 6 ^^^ c 2 := hat 6
  have hctx7 : s 7 ^^^ c 3 = s' 7 ^^^ c 3 := hat 7
  have hr5 : s 9 = s' 9 := hat 9
  have hr6 : s 11 = s' 11 := hat 11
  have hr8 : s 14 = s' 14 := hat 14
  have hr9 : s 15 = s' 15 := hat 15
  rw [UInt8.xor_left_inj] at hctx4 hctx5 hctx6 hctx7
  funext i
  fin_cases i <;> simp [stamp, *]

theorem chain_injective (hfirst : IsFirst h serverId first) (hfirst' : IsFirst h serverId first')
    (k : ℕ) (heq : chain h c serverId first k = chain h c serverId first' k) : first = first' := by
  induction k with
  | zero => exact heq
  | succ k ih =>
    have hstamp := stamp_eq_of_next heq
    rw [stamp_chain hfirst, stamp_chain hfirst'] at hstamp
    exact ih hstamp

theorem chain_round (hfirst : IsFirst h serverId first) (k : ℕ) :
    chain h c serverId first k 0 = UInt8.ofNat (k + 1) := by
  rw [← stamp_chain hfirst]
  rfl

/-- Two sessions, or two rounds of one, never have the same value. -/
theorem chain_inj {k' : ℕ} (hfirst : IsFirst h serverId first) (hfirst' : IsFirst h serverId first')
    (hk : k < 255) (hk' : k' < 255)
    (heq : chain h c serverId first k = chain h c serverId first' k') :
    first = first' ∧ k = k' := by
  have hround : UInt8.ofNat (k + 1) = UInt8.ofNat (k' + 1) := by
    rw [← chain_round hfirst, heq, chain_round hfirst']
  have hsame : k = k' := by
    have hnat := congrArg UInt8.toNat hround
    simp only [UInt8.toNat_ofNat'] at hnat
    omega
  subst hsame
  exact ⟨chain_injective hfirst hfirst' k heq, rfl⟩

end Chain

end FreeRadius.SessionState
