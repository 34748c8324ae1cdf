import Mathlib

/-!
# Runs of a machine

A machine has initial states and a partial step function: `step s i = none` says that the input
`i` is not enabled in `s`. A run may be restricted by a condition `ok` on the inputs it takes;
`Reachable M ok` is the set of states such runs visit.

The rules are the two a safety proof needs. An inductive property holds in every reachable state,
where the induction may use what is already known of reachable states. If every step of one
machine is matched by steps of another, reachable states are carried over.
-/

universe u v w x

structure Machine (σ : Type u) (ι : Type v) where
  init : σ → Prop
  step : σ → ι → Option σ

namespace Machine

variable {σ : Type u} {ι : Type v} {τ : Type w} {κ : Type x}

section Guards

variable {P : σ → Prop} {s t : σ} {c : Prop} [Decidable c]

/-- What the guard of a step gives for its result holds of the state after the step. -/
theorem of_guarded (h : (if c then some s else none) = some t) (hs : c → P s) : P t := by
  obtain ⟨hc, h⟩ := Option.ite_none_right_eq_some.mp h
  exact Option.some.inj h ▸ hs hc

theorem of_refused (h : (if c then none else some s) = some t) (hs : ¬ c → P s) : P t := by
  obtain ⟨hc, h⟩ := Option.ite_none_left_eq_some.mp h
  exact Option.some.inj h ▸ hs hc

theorem of_found {o : Option τ} {f : τ → Option σ} (h : o.bind f = some t)
    (hs : ∀ x, o = some x → f x = some t → P t) : P t := by
  obtain ⟨x, hx, h⟩ := Option.bind_eq_some_iff.mp h
  exact hs x hx h

end Guards

/-- The states visited by runs all of whose inputs satisfy `ok`. -/
inductive Reachable (M : Machine σ ι) (ok : σ → ι → Prop) : σ → Prop where
  | init {s : σ} : M.init s → Reachable M ok s
  | step {s t : σ} {i : ι} : Reachable M ok s → ok s i → M.step s i = some t → Reachable M ok t

variable {M : Machine σ ι} {ok : σ → ι → Prop}

theorem Reachable.invariant {P : σ → Prop} {s : σ} (h : Reachable M ok s) (hi : ∀ s, M.init s → P s)
    (hst : ∀ s i t, Reachable M ok s → P s → ok s i → M.step s i = some t → P t) : P s := by
  induction h with
  | init hs => exact hi _ hs
  | step hr hok hs ih => exact hst _ _ _ hr ih hok hs

/-- Weakening the condition on inputs reaches at least as many states. -/
theorem Reachable.mono {ok' : σ → ι → Prop} {s : σ} (h : Reachable M ok s)
    (himp : ∀ s i, ok s i → ok' s i) : Reachable M ok' s := by
  induction h with
  | init hs => exact .init hs
  | step _ hok hs ih => exact .step ih (himp _ _ hok) hs

def run (M : Machine σ ι) (s : σ) (inputs : List ι) : Option σ := inputs.foldlM M.step s

/-- Every input of a run satisfies `ok` in the state it is taken in. -/
def RunOk (M : Machine σ ι) (ok : σ → ι → Prop) : σ → List ι → Prop
  | _, [] => True
  | s, i :: inputs => ok s i ∧ ∀ t, M.step s i = some t → RunOk M ok t inputs

instance decidableRunOk (M : Machine σ ι) (ok : σ → ι → Prop) [∀ s i, Decidable (ok s i)] :
    (s : σ) → (inputs : List ι) → Decidable (M.RunOk ok s inputs)
  | _, [] => isTrue trivial
  | s, i :: inputs =>
    match h : M.step s i with
    | none => decidable_of_iff (ok s i) ⟨fun hok => ⟨hok, fun t ht => by rw [h] at ht; cases ht⟩,
        fun hr => hr.1⟩
    | some t =>
      have := decidableRunOk M ok t inputs
      decidable_of_iff (ok s i ∧ M.RunOk ok t inputs)
        ⟨fun hok => ⟨hok.1, fun t' ht => by rw [h] at ht; cases ht; exact hok.2⟩,
          fun hr => ⟨hr.1, hr.2 t h⟩⟩

/-- A condition that does not look at the state holds along a run if it holds of its inputs. -/
theorem runOk_of_forall {inputs : List ι} (h : ∀ i ∈ inputs, ∀ s, ok s i) (s : σ) :
    M.RunOk ok s inputs := by
  induction inputs generalizing s with
  | nil => trivial
  | cons i _ ih =>
    refine ⟨h i List.mem_cons_self s, fun t _ => ?_⟩
    exact ih (fun j hj => h j (List.mem_cons_of_mem i hj)) t

theorem Reachable.run {s t : σ} {inputs : List ι} (h : Reachable M ok s)
    (hok : M.RunOk ok s inputs) (hrn : M.run s inputs = some t) : Reachable M ok t := by
  induction inputs generalizing s with
  | nil =>
    cases hrn
    exact h
  | cons _ _ ih =>
    obtain ⟨s', hs', hr⟩ := Option.bind_eq_some_iff.mp hrn
    exact ih (h.step hok.1 hs') (hok.2 s' hs') hr

/-- One machine simulates another: initial states correspond, and each step is matched by a run. -/
theorem Reachable.simulate {N : Machine τ κ} {okN : τ → κ → Prop} {f : σ → τ} {s : σ}
    (h : Reachable M ok s) (hin : ∀ s, M.init s → N.init (f s))
    (hst : ∀ s i t, Reachable M ok s → Reachable N okN (f s) → ok s i → M.step s i = some t →
      ∃ inputs, N.RunOk okN (f s) inputs ∧ N.run (f s) inputs = some (f t)) :
    Reachable N okN (f s) := by
  induction h with
  | init hs => exact .init (hin _ hs)
  | step hr hok hs ih =>
    obtain ⟨_, hi, hrn⟩ := hst _ _ _ hr ih hok hs
    exact ih.run hi hrn

end Machine
