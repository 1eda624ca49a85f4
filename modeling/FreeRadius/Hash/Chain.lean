import FreeRadius.Hash.Fixup

/-!
# Searching and changing one chain

The lemmas are about any order of the chains that lets `list_find` stop where
it does: no entry behind one that is less than the data is equal to them.
-/

namespace FreeRadius.Hash

open List
open Std (TransCmp OrientedCmp ReflCmp)

variable {α : Type} {cmp : α → α → Ordering} {c : List (Entry α)} {node : Entry α} {data : α}

/-- `a` may come before `b` when the chain is searched for `data`. -/
structure SearchOrder (cmp : α → α → Ordering) (reversed : ℕ) (data : α) (a b : Entry α) :
    Prop where
  le : a.reversed ≤ b.reversed
  stop : a.reversed = reversed → b.reversed = reversed → cmp data a.data = .gt →
    cmp data b.data ≠ .eq

/-- The entry that a search is for. -/
def Matches (cmp : α → α → Ordering) (reversed : ℕ) (data : α) (e : Entry α) : Prop :=
  e.reversed = reversed ∧ cmp data e.data = .eq

variable {reversed : ℕ}

theorem listFind_some {cur : Cursor α} (h : listFind cmp reversed data c = some cur) :
    cur.put cur.node = c ∧ Matches cmp reversed data cur.node := by
  induction c generalizing cur with
  | nil => simp [listFind] at h
  | cons e next ih =>
    have hpush : ∀ {cur}, (listFind cmp reversed data next).map (Cursor.push e) = some cur →
        cur.put cur.node = e :: next ∧ Matches cmp reversed data cur.node := by
      intro cur hcur
      obtain ⟨c', hc', rfl⟩ := Option.map_eq_some_iff.mp hcur
      obtain ⟨hput, hm⟩ := ih hc'
      refine ⟨?_, hm⟩
      show e :: c'.put c'.node = e :: next
      rw [hput]
    rw [listFind] at h
    split_ifs at h with hrev hgt
    · split at h
      · simp at h
      · exact hpush h
      · next heq =>
        cases h
        exact ⟨rfl, hrev, heq⟩
    · exact hpush h

theorem listFind_none (hs : c.Pairwise (SearchOrder cmp reversed data))
    (h : listFind cmp reversed data c = none) : ∀ e ∈ c, ¬ Matches cmp reversed data e := by
  induction c with
  | nil => simp
  | cons e next ih =>
    obtain ⟨hhead, htail⟩ := pairwise_cons.mp hs
    rw [listFind] at h
    intro x hx hm
    split_ifs at h with hrev hgt
    · split at h
      · next hcmp =>
        rcases mem_cons.mp hx with rfl | hx
        · rw [hm.2] at hcmp
          cases hcmp
        · exact (hhead x hx).stop hrev hm.1 hcmp hm.2
      · next hcmp =>
        rcases mem_cons.mp hx with rfl | hx
        · rw [hm.2] at hcmp
          cases hcmp
        · exact ih htail (Option.map_eq_none_iff.mp h) x hx hm
      · simp at h
    · rcases mem_cons.mp hx with rfl | hx
      · exact hrev hm.1
      · have := (hhead x hx).le
        have := hm.1
        omega
    · rcases mem_cons.mp hx with rfl | hx
      · exact hrev hm.1
      · exact ih htail (Option.map_eq_none_iff.mp h) x hx hm

/-- An entry equal to the new one keeps it out of the chain. -/
theorem listInsert_present (hs : c.Pairwise (SearchOrder cmp node.reversed node.data))
    (h : ∃ e ∈ c, Matches cmp node.reversed node.data e) : listInsert cmp node c = none := by
  induction c with
  | nil => simp at h
  | cons e next ih =>
    obtain ⟨hhead, htail⟩ := pairwise_cons.mp hs
    obtain ⟨x, hx, hm⟩ := h
    have hrest : ¬ Matches cmp node.reversed node.data e → listInsert cmp node next = none := by
      intro hne
      apply ih htail
      rcases mem_cons.mp hx with rfl | hx
      · exact absurd hm hne
      · exact ⟨x, hx, hm⟩
    have hle : e.reversed ≤ node.reversed := by
      rcases mem_cons.mp hx with rfl | hx
      · exact hm.1.le
      · exact (hhead x hx).le.trans hm.1.le
    rw [listInsert, if_neg (by omega)]
    by_cases hrev : e.reversed = node.reversed
    · rw [if_pos hrev]
      cases hcmp : cmp node.data e.data with
      | lt =>
        have hne : ¬ Matches cmp node.reversed node.data e := by
          rintro ⟨-, heq⟩
          rw [hcmp] at heq
          cases heq
        simp [hrest hne]
      | eq => rfl
      | gt =>
        rcases mem_cons.mp hx with rfl | hx
        · rw [hm.2] at hcmp
          cases hcmp
        · exact absurd hm.2 ((hhead x hx).stop hrev hm.1 hcmp)
    · rw [if_neg hrev]
      have hne : ¬ Matches cmp node.reversed node.data e := fun hm => hrev hm.1
      simp [hrest hne]

/-! ## Searches that stop too early -/

/-- Among entries with the reversed key of the data, one that is less than the
data comes before any equal one. -/
def Blocked (cmp : α → α → Ordering) (data : α) (run : List (Entry α)) : Prop :=
  ∃ l₁ e l₂, run = l₁ ++ e :: l₂ ∧ (∀ x ∈ l₁, cmp data x.data = .lt) ∧ cmp data e.data = .gt

theorem listFind_blocked (h : Blocked cmp data (c.filter fun e => e.reversed = reversed)) :
    listFind cmp reversed data c = none := by
  induction c with
  | nil => rfl
  | cons e next ih =>
    rw [listFind]
    by_cases hrev : e.reversed = reversed
    · rw [if_pos hrev]
      obtain ⟨l₁, x, l₂, hrun, hlt, hgt⟩ := h
      rw [filter_cons_of_pos (by simpa using hrev)] at hrun
      cases l₁ with
      | nil =>
        cases hrun
        simp [hgt]
      | cons y l₁ =>
        rw [cons_append] at hrun
        obtain ⟨rfl, htail⟩ := List.cons.inj hrun
        have hnext : Blocked cmp data (next.filter fun e => e.reversed = reversed) :=
          ⟨l₁, x, l₂, htail, fun z hz => hlt z (mem_cons_of_mem _ hz), hgt⟩
        simp [hlt e (by simp), ih hnext]
    · rw [if_neg hrev]
      rw [filter_cons_of_neg (by simpa using hrev)] at h
      split_ifs
      · rfl
      · simp [ih h]

theorem Blocked.cons {e : Entry α} {run : List (Entry α)} (h : Blocked cmp data run)
    (he : cmp data e.data = .lt) : Blocked cmp data (e :: run) := by
  obtain ⟨l₁, x, l₂, rfl, hlt, hgt⟩ := h
  exact ⟨e :: l₁, x, l₂, rfl, forall_mem_cons.mpr ⟨he, hlt⟩, hgt⟩

/-- A new entry that is equal to none is put behind the first one with its
reversed key that is less, where it cannot be found, or behind all of them. -/
theorem listInsert_spec (hs : c.Pairwise (fun a b => a.reversed ≤ b.reversed))
    (hne : ∀ e ∈ c, ¬ Matches cmp node.reversed node.data e) :
    ∃ l₁ l₂, c = l₁ ++ l₂ ∧ listInsert cmp node c = some (l₁ ++ node :: l₂) ∧
      (∀ e ∈ l₁, e.reversed ≤ node.reversed) ∧ (∀ e ∈ l₂, node.reversed ≤ e.reversed) ∧
      (Blocked cmp node.data (l₁.filter fun e => e.reversed = node.reversed) ∨
        (∀ e ∈ l₁, e.reversed = node.reversed → cmp node.data e.data = .lt) ∧
          ∀ e ∈ l₂, node.reversed < e.reversed) := by
  induction c with
  | nil => exact ⟨[], [], rfl, rfl, nofun, nofun, .inr ⟨nofun, nofun⟩⟩
  | cons e next ih =>
    obtain ⟨hhead, htail⟩ := pairwise_cons.mp hs
    by_cases hgt : node.reversed < e.reversed
    · have hrest : ∀ x ∈ e :: next, node.reversed < x.reversed :=
        forall_mem_cons.mpr ⟨hgt, fun x hx => hgt.trans_le (hhead x hx)⟩
      exact ⟨[], e :: next, rfl, by simp [listInsert, hgt], nofun, fun x hx => (hrest x hx).le,
        .inr ⟨nofun, hrest⟩⟩
    have hle := Nat.not_lt.mp hgt
    by_cases hstop : e.reversed = node.reversed ∧ cmp node.data e.data = .gt
    · exact ⟨[e], next, rfl, by simp [listInsert, hstop.1, hstop.2], by simpa using hle,
        fun x hx => hstop.1 ▸ hhead x hx, .inl ⟨[], e, [], by simp [hstop.1], nofun, hstop.2⟩⟩
    have hlt : e.reversed = node.reversed → cmp node.data e.data = .lt := by
      intro hrev
      have h1 : cmp node.data e.data ≠ .eq := fun he => hne e (by simp) ⟨hrev, he⟩
      have h2 : cmp node.data e.data ≠ .gt := fun he => hstop ⟨hrev, he⟩
      revert h1 h2
      cases cmp node.data e.data <;> simp
    obtain ⟨l₁, l₂, rfl, hins, h₁, h₂, hend⟩ := ih htail
      fun x hx => hne x (mem_cons_of_mem _ hx)
    refine ⟨e :: l₁, l₂, rfl, ?_, forall_mem_cons.mpr ⟨hle, h₁⟩, h₂, ?_⟩
    · rw [listInsert, if_neg hgt]
      by_cases hrev : e.reversed = node.reversed
      · simp [hrev, hlt hrev, hins]
      · simp [hrev, hins]
    rcases hend with hb | ⟨hall, hafter⟩
    · left
      by_cases hrev : e.reversed = node.reversed
      · rw [filter_cons_of_pos (by simpa using hrev)]
        exact hb.cons (hlt hrev)
      · rwa [filter_cons_of_neg (by simpa using hrev)]
    · exact .inr ⟨forall_mem_cons.mpr ⟨hlt, hall⟩, hafter⟩

theorem Blocked.exists_gt (h : Blocked cmp data (c.filter fun e => e.reversed = reversed)) :
    ∃ e ∈ c, e.reversed = reversed ∧ cmp data e.data = .gt := by
  obtain ⟨l₁, e, l₂, hrun, -, hgt⟩ := h
  have he : e ∈ c.filter fun e => e.reversed = reversed := by simp [hrun]
  obtain ⟨he, hrev⟩ := mem_filter.mp he
  exact ⟨e, he, of_decide_eq_true hrev, hgt⟩

theorem Blocked.append {l : List (Entry α)} (h : Blocked cmp data l)
    (l' : List (Entry α)) : Blocked cmp data (l ++ l') := by
  obtain ⟨l₁, e, l₂, rfl, hlt, hgt⟩ := h
  exact ⟨l₁, e, l₂ ++ l', by simp, hlt, hgt⟩

end FreeRadius.Hash
