import Mathlib.Data.List.Basic

/-!
# Ledgers of grants

A ledger records, in order, that grants are opened and that keys are closed. A grant is open when its
key has not been closed after it was opened.
-/

namespace Library

open List

inductive LedgerEntry (ι κ : Type*) where
  | opened (i : ι)
  | closed (k : κ)

namespace Ledger

variable {ι κ : Type*} (key : ι → κ)

def grants (log : List (LedgerEntry ι κ)) : List ι :=
  log.filterMap fun
    | .opened i => some i
    | .closed _ => none

def Open (log : List (LedgerEntry ι κ)) (i : ι) : Prop :=
  ∃ before after, log = before ++ .opened i :: after ∧ .closed (key i) ∉ after

@[simp] theorem grants_append (log log' : List (LedgerEntry ι κ)) :
    grants (log ++ log') = grants log ++ grants log' :=
  filterMap_append

@[simp] theorem grants_opened (i : ι) : grants [(.opened i : LedgerEntry ι κ)] = [i] := rfl

@[simp] theorem grants_closed (ks : List κ) :
    grants (ks.map (.closed : κ → LedgerEntry ι κ)) = [] := by
  induction ks with
  | nil => rfl
  | cons k ks ih => exact ih

theorem grants_append_closed (log : List (LedgerEntry ι κ)) (ks : List κ) :
    grants (log ++ ks.map .closed) = grants log := by
  rw [grants_append, grants_closed, append_nil]

theorem mem_grants {log : List (LedgerEntry ι κ)} {i : ι} : i ∈ grants log ↔ .opened i ∈ log := by
  rw [grants, mem_filterMap]
  constructor
  · rintro ⟨e, he, hi⟩
    cases e with
    | opened j =>
      cases hi
      exact he
    | closed k => cases hi
  · intro hi
    exact ⟨.opened i, hi, rfl⟩

variable {key} {log : List (LedgerEntry ι κ)} {i j : ι}

theorem Open.mem_grants (hi : Open key log i) : i ∈ grants log := by
  obtain ⟨before, after, rfl, -⟩ := hi
  exact Ledger.mem_grants.mpr (by simp)

theorem open_append_closed_iff {ks : List κ} :
    Open key (log ++ ks.map .closed) i ↔ Open key log i ∧ key i ∉ ks := by
  constructor
  · rintro ⟨before, after, heq, hafter⟩
    -- the grant was opened in the old part, since the new part opens nothing
    obtain ⟨middle, hleft, hright⟩ | ⟨middle, hleft, hright⟩ :=
      append_eq_append_iff.mp heq
    · have hmem : (.opened i : LedgerEntry ι κ) ∈ ks.map .closed := by
        rw [hright]
        simp
      obtain ⟨k, -, hk⟩ := mem_map.mp hmem
      cases hk
    cases middle with
    | nil =>
      have hmem : (.opened i : LedgerEntry ι κ) ∈ ks.map .closed := by
        rw [← (nil_append _ : [] ++ ks.map LedgerEntry.closed = _), ← hright]
        simp
      obtain ⟨k, -, hk⟩ := mem_map.mp hmem
      cases hk
    | cons e middle =>
      obtain ⟨rfl, rfl⟩ := List.cons.inj hright
      refine ⟨⟨before, middle, hleft, fun hm => hafter (mem_append_left _ hm)⟩, fun hk => ?_⟩
      exact hafter (mem_append_right _ (mem_map_of_mem hk))
  · rintro ⟨⟨before, after, rfl, hafter⟩, hk⟩
    refine ⟨before, after ++ ks.map .closed, by simp, fun hm => ?_⟩
    obtain hm | hm := mem_append.mp hm
    · exact hafter hm
    · obtain ⟨k, hks, heq⟩ := mem_map.mp hm
      cases heq
      exact hk hks

theorem open_append_opened_iff : Open key (log ++ [.opened j]) i ↔ Open key log i ∨ i = j := by
  constructor
  · rintro ⟨before, after, heq, hafter⟩
    obtain rfl | ⟨last, after, rfl⟩ := after.eq_nil_or_concat'
    · obtain ⟨-, hlast⟩ := append_inj' heq rfl
      cases hlast
      exact .inr rfl
    · have heq' : log ++ [.opened j] = (before ++ .opened i :: last) ++ [after] := by simp [heq]
      obtain ⟨hlog, -⟩ := append_inj' heq' rfl
      exact .inl ⟨before, last, hlog, fun hm => hafter (mem_append_left _ hm)⟩
  · rintro (⟨before, after, rfl, hafter⟩ | rfl)
    · refine ⟨before, after ++ [.opened j], by simp, fun hm => ?_⟩
      obtain hm | hm := mem_append.mp hm
      · exact hafter hm
      · cases mem_singleton.mp hm
    · exact ⟨log, [], rfl, not_mem_nil⟩

/-- Where no key is granted twice, a key says where its grant stands. -/
theorem split_unique {before after before' after' : List (LedgerEntry ι κ)}
    (hnodup : ((grants (before ++ .opened i :: after)).map key).Nodup)
    (heq : before ++ .opened i :: after = before' ++ .opened j :: after') (hkey : key i = key j) :
    i = j ∧ after = after' := by
  induction before generalizing before' with
  | nil =>
    cases before' with
    | nil =>
      obtain ⟨hhead, rfl⟩ := List.cons.inj heq
      cases hhead
      exact ⟨rfl, rfl⟩
    | cons e before' =>
      obtain ⟨rfl, rfl⟩ := List.cons.inj heq
      have hj : key j ∈ (grants (before' ++ .opened j :: after')).map key :=
        mem_map_of_mem (Ledger.mem_grants.mpr (by simp))
      exact absurd (hkey ▸ hj) (nodup_cons.mp hnodup).1
  | cons e before ih =>
    cases before' with
    | nil =>
      obtain ⟨rfl, rfl⟩ := List.cons.inj heq
      have hi : key i ∈ (grants (before ++ .opened i :: after)).map key :=
        mem_map_of_mem (Ledger.mem_grants.mpr (by simp))
      exact absurd (hkey ▸ hi) (nodup_cons.mp hnodup).1
    | cons e' before' =>
      obtain ⟨-, htail⟩ := List.cons.inj heq
      refine ih ?_ htail
      cases e with
      | opened k => exact (nodup_cons.mp hnodup).2
      | closed k => exact hnodup

end Ledger

end Library
