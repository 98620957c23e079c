import Mathlib.Logic.Basic

/-! # Machines that take commands

A machine takes commands one after the other; an error ends the run. It is given by a relation
between a state, a command and what comes of it. Another machine, whose state is abstract and which
computes, is refined by it if every command that is allowed has the result that the abstract machine
computes (`Refines`). Then this holds of whole runs (`Refines.run_total`, `Refines.run_sound`), and
what the commands keep of the abstract state is kept by runs (`Refines.run_keeps`). -/

namespace PgBson.Lib.Refinement

variable {γ σ τ ε : Type}

/-- A run of commands. -/
inductive Runs (Step : γ → σ → Except ε σ → Prop) : List γ → σ → Except ε σ → Prop
  | nil {s : σ} : Runs Step [] s (.ok s)
  | error {c : γ} {cs : List γ} {s : σ} {e : ε} (h : Step c s (.error e)) :
      Runs Step (c :: cs) s (.error e)
  | cons {c : γ} {cs : List γ} {s t : σ} {r : Except ε σ} (h : Step c s (.ok t))
      (hr : Runs Step cs t r) : Runs Step (c :: cs) s r

/-- A run of the abstract machine. -/
def execs (exec : γ → τ → Except ε τ) : List γ → τ → Except ε τ
  | [], t => .ok t
  | c :: cs, t =>
    match exec c t with
    | .ok t' => execs exec cs t'
    | .error e => .error e

/-- Every command of a run is allowed where it is given. -/
def Allowed (exec : γ → τ → Except ε τ) (allows : τ → γ → Prop) : List γ → τ → Prop
  | [], _ => True
  | c :: cs, t => allows t c ∧ ∀ t', exec c t = .ok t' → Allowed exec allows cs t'

/-- The states that the abstract machine describes are changed as it computes. -/
structure Refines (Step : γ → σ → Except ε σ → Prop) (exec : γ → τ → Except ε τ) (enc : τ → σ)
    (inv : τ → Prop) (allows : τ → γ → Prop) : Prop where
  total {c : γ} {t : τ} : inv t → allows t c → ∃ r, Step c (enc t) r
  sound {c : γ} {t : τ} {r : Except ε σ} : inv t → allows t c → Step c (enc t) r →
    r = (exec c t).map enc
  keeps {c : γ} {t t' : τ} : inv t → allows t c → exec c t = .ok t' → inv t'

section runs
variable {Step : γ → σ → Except ε σ → Prop} {exec : γ → τ → Except ε τ} {enc : τ → σ}
  {inv : τ → Prop} {allows : τ → γ → Prop} (h : Refines Step exec enc inv allows)
include h

/-- **Runs refine.** -/
theorem Refines.run_sound {cs : List γ} {r : Except ε σ} : ∀ {t : τ}, inv t →
    Allowed exec allows cs t → Runs Step cs (enc t) r → r = (execs exec cs t).map enc := by
  induction cs with
  | nil =>
    intro t _ _ hr
    cases hr
    rfl
  | cons c cs ih =>
    intro t ht hallow hr
    cases hr with
    | error hstep =>
      have hr := h.sound ht hallow.1 hstep
      rw [execs]
      cases he : exec c t with
      | ok t' =>
        rw [he] at hr
        cases hr
      | error e =>
        rw [he] at hr
        exact hr
    | cons hstep hruns =>
      have hr := h.sound ht hallow.1 hstep
      rw [execs]
      cases he : exec c t with
      | ok t' =>
        rw [he] at hr
        cases hr
        exact ih (h.keeps ht hallow.1 he) (hallow.2 t' he) hruns
      | error e =>
        rw [he] at hr
        cases hr

/-- **Runs end.** -/
theorem Refines.run_total {cs : List γ} : ∀ {t : τ}, inv t → Allowed exec allows cs t →
    ∃ r, Runs Step cs (enc t) r := by
  induction cs with
  | nil => exact fun _ _ => ⟨_, .nil⟩
  | cons c cs ih =>
    intro t ht hallow
    obtain ⟨r, hr⟩ := h.total ht hallow.1
    have hs := h.sound ht hallow.1 hr
    cases he : exec c t with
    | ok t' =>
      rw [he] at hs
      obtain rfl : r = .ok (enc t') := hs
      obtain ⟨r', hr'⟩ := ih (h.keeps ht hallow.1 he) (hallow.2 t' he)
      exact ⟨r', .cons hr hr'⟩
    | error e =>
      rw [he] at hs
      obtain rfl : r = .error e := hs
      exact ⟨_, .error hr⟩

/-- **What the commands keep is kept by runs.** -/
theorem Refines.run_keeps {cs : List γ} {t' : τ} : ∀ {t : τ}, inv t → Allowed exec allows cs t →
    execs exec cs t = .ok t' → inv t' := by
  induction cs with
  | nil =>
    intro t ht _ hr
    exact Except.ok.inj hr ▸ ht
  | cons c cs ih =>
    intro t ht hallow hr
    rw [execs] at hr
    cases he : exec c t with
    | ok u =>
      rw [he] at hr
      exact ih (h.keeps ht hallow.1 he) (hallow.2 u he) hr
    | error e =>
      rw [he] at hr
      cases hr

/-- The error that ends a run is one of a command. -/
theorem Refines.run_error {P : ε → Prop}
    (hP : ∀ {c : γ} {t : τ} {e : ε}, inv t → allows t c → exec c t = .error e → P e)
    {cs : List γ} {e : ε} : ∀ {t : τ}, inv t → Allowed exec allows cs t →
      execs exec cs t = .error e → P e := by
  induction cs with
  | nil =>
    intro t _ _ hr
    cases hr
  | cons c cs ih =>
    intro t ht hallow hr
    rw [execs] at hr
    cases he : exec c t with
    | ok u =>
      rw [he] at hr
      exact ih (h.keeps ht hallow.1 he) (hallow.2 u he) hr
    | error x =>
      rw [he] at hr
      exact Except.error.inj hr ▸ hP ht hallow.1 he

end runs

end PgBson.Lib.Refinement
