import Mathlib.Data.Nat.Notation
import Mathlib.Logic.Relation

/-! # Loops as machines

A loop of a program is a function that takes the state to the next one or ends with a result. It is
run with fuel, so that a loop that does not end is a legal model; `Ends` says that some fuel is
enough.

What is proved about a loop: from a state that is reached it ends as from the start
(`Reaches.ends_iff`), with one result only (`Ends.unique`); it ends when a measure goes down
(`exists_ends`), and it does not when it comes back to a state (`not_ends_of_cycle`). -/

namespace PgBson.Lib.Machine

variable {σ ρ : Type} {step : σ → ρ ⊕ σ} {s t : σ} {r : ρ}

/-- The loop with a bound on its rounds. -/
def run (step : σ → ρ ⊕ σ) : ℕ → σ → Option ρ
  | 0, _ => none
  | n + 1, s =>
    match step s with
    | .inl r => some r
    | .inr t => run step n t

/-- The loop ends with a result. -/
def Ends (step : σ → ρ ⊕ σ) (s : σ) (r : ρ) : Prop := ∃ n, run step n s = some r

/-- One state follows another. -/
def Follows (step : σ → ρ ⊕ σ) (s t : σ) : Prop := step s = .inr t

/-- A state comes after another in some number of rounds. -/
abbrev Reaches (step : σ → ρ ⊕ σ) : σ → σ → Prop := Relation.ReflTransGen (Follows step)

/-! ### Ends -/

theorem ends_of_inl (h : step s = .inl r) : Ends step s r := ⟨1, by rw [run, h]⟩

theorem ends_inr_iff (h : step s = .inr t) : Ends step s r ↔ Ends step t r := by
  constructor
  · rintro ⟨_ | n, hn⟩
    · cases hn
    · rw [run, h] at hn
      exact ⟨n, hn⟩
  · rintro ⟨n, hn⟩
    exact ⟨n + 1, by rw [run, h]; exact hn⟩

theorem Reaches.ends_iff (h : Reaches step s t) : Ends step s r ↔ Ends step t r := by
  induction h with
  | refl => exact Iff.rfl
  | tail _ hstep ih => exact ih.trans (ends_inr_iff hstep)

/-- A state from which the loop does the same goes the same way. -/
theorem Reaches.of_step_eq {u : σ} (h : step s = step t) (ht : Reaches step t u) (hne : t ≠ u) :
    Reaches step s u := by
  rcases Relation.ReflTransGen.cases_head ht with rfl | ⟨v, hv, hvu⟩
  · exact absurd rfl hne
  · exact Relation.ReflTransGen.head (h.trans hv) hvu

theorem run_unique : ∀ {m n : ℕ} {s : σ} {r r' : ρ}, run step m s = some r →
    run step n s = some r' → r = r'
  | 0, _, _, _, _, h, _ => by cases h
  | _, 0, _, _, _, _, h => by cases h
  | m + 1, n + 1, s, r, r', h, h' => by
    rw [run] at h h'
    cases hs : step s with
    | inl x =>
      rw [hs] at h h'
      exact Option.some.inj (h.symm.trans h')
    | inr t =>
      rw [hs] at h h'
      exact run_unique h h'

/-- **A loop has one result.** -/
theorem Ends.unique {r' : ρ} (h : Ends step s r) (h' : Ends step s r') : r = r' := by
  obtain ⟨m, hm⟩ := h
  obtain ⟨n, hn⟩ := h'
  exact run_unique hm hn

/-- **A loop ends if a measure goes down in every round** of the states it can come to. -/
theorem exists_ends (μ : σ → ℕ) (I : σ → Prop)
    (hstep : ∀ s t, I s → step s = .inr t → I t ∧ μ t < μ s) :
    ∀ {s : σ}, I s → ∃ r, Ends step s r := by
  suffices h : ∀ n s, μ s < n → I s → ∃ r, Ends step s r from
    fun {s} hs => h _ s (Nat.lt_succ_self _) hs
  intro n
  induction n with
  | zero => intro s hs; omega
  | succ n ih =>
    intro s hs hI
    cases hst : step s with
    | inl r => exact ⟨r, ends_of_inl hst⟩
    | inr t =>
      obtain ⟨ht, hlt⟩ := hstep s t hI hst
      obtain ⟨r, hr⟩ := ih t (by omega) ht
      exact ⟨r, (ends_inr_iff hst).mpr hr⟩

/-- The rounds to a state that is reached are taken off the fuel. -/
theorem Reaches.run_eq (h : Reaches step s t) {n : ℕ} (hn : run step n s = some r) :
    ∃ m ≤ n, run step m t = some r := by
  induction h with
  | refl => exact ⟨n, Nat.le_refl n, hn⟩
  | tail _ hstep ih =>
    obtain ⟨m, hm, hr⟩ := ih
    cases m with
    | zero => cases hr
    | succ m =>
      rw [run, hstep] at hr
      exact ⟨m, by omega, hr⟩

/-- **A loop that comes back to a state does not end.** -/
theorem not_ends_of_cycle (h : step s = .inr t) (ht : Reaches step t s) : ¬ Ends step s r := by
  rintro ⟨n, hn⟩
  induction n using Nat.strongRecOn with
  | _ n ih =>
    cases n with
    | zero => cases hn
    | succ n =>
      rw [run, h] at hn
      obtain ⟨m, hm, hr⟩ := ht.run_eq hn
      exact ih m (by omega) hr

end PgBson.Lib.Machine
