import Mathlib.Tactic

/-!
# Loops with fuel

A loop of a program is a function of its fuel, with no result when the fuel is
used up. It returns `r` if every large enough fuel gives `r`.
-/

namespace Library

variable {σ τ υ : Type} {f : ℕ → Option σ} {r : σ}

/-- With enough fuel the result is `r`. -/
def Returns (f : ℕ → Option σ) (r : σ) : Prop := ∃ bound, ∀ fuel, bound ≤ fuel → f fuel = some r

theorem Returns.of_eq (h : ∀ fuel, f fuel = some r) : Returns f r :=
  ⟨0, fun fuel _ => h fuel⟩

theorem Returns.of_add (bound : ℕ) (h : ∀ n, f (n + bound) = some r) : Returns f r := by
  refine ⟨bound, fun fuel hfuel => ?_⟩
  obtain ⟨n, rfl⟩ := Nat.exists_eq_add_of_le' hfuel
  exact h n

theorem Returns.congr {g : ℕ → Option σ} (hf : Returns f r) (h : ∀ fuel, g fuel = f fuel) :
    Returns g r := by
  obtain ⟨bound, hb⟩ := hf
  exact ⟨bound, fun fuel hfuel => (h fuel).trans (hb fuel hfuel)⟩

/-- A program that runs one loop. -/
theorem Returns.imp {g : ℕ → Option τ} {b : τ} (hf : Returns f r)
    (h : ∀ fuel, f fuel = some r → g fuel = some b) : Returns g b := by
  obtain ⟨bound, hb⟩ := hf
  exact ⟨bound, fun fuel hfuel => h fuel (hb fuel hfuel)⟩

/-- One turn of a loop, which costs one unit of fuel. -/
theorem Returns.turn {g : ℕ → Option σ} (hf : Returns f r)
    (h : ∀ fuel, g (fuel + 1) = f fuel) : Returns g r := by
  obtain ⟨bound, hb⟩ := hf
  refine ⟨bound + 1, fun fuel hfuel => ?_⟩
  obtain ⟨n, rfl⟩ := Nat.exists_eq_add_of_le' (Nat.le_of_add_left_le hfuel)
  rw [h]
  exact hb n (by omega)

/-- A program that runs two loops with the same fuel. -/
theorem Returns.after {g : ℕ → Option τ} {h : ℕ → Option υ} {a : σ} {b : τ}
    {c : υ} (hf : Returns f a) (hg : Returns g b)
    (hh : ∀ fuel, f fuel = some a → g fuel = some b → h fuel = some c) : Returns h c := by
  obtain ⟨m, hm⟩ := hf
  obtain ⟨n, hn⟩ := hg
  refine ⟨max m n, fun fuel hfuel => hh fuel (hm fuel ?_) (hn fuel ?_)⟩
  · exact le_trans (le_max_left m n) hfuel
  · exact le_trans (le_max_right m n) hfuel

theorem Returns.unique {a b : σ} (ha : Returns f a) (hb : Returns f b) : a = b := by
  obtain ⟨m, hm⟩ := ha
  obtain ⟨n, hn⟩ := hb
  have h := hm (max m n) (le_max_left m n)
  rw [hn _ (le_max_right m n), Option.some.injEq] at h
  exact h.symm

end Library
