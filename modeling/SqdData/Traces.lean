import SqdData.Transition

/-!
# Infinite runs of a machine

A trace is an infinite run that may pause: where it has no input the state stays. What happens
eventually along a trace follows from fairness assumptions, which are properties of single traces,
and from three rules: an event has a first occurrence, a property that steps keep holds until it,
and a measure that never grows settles.
-/

universe u v

namespace Machine

variable {σ : Type u} {ι : Type v}

structure Trace (M : Machine σ ι) (ok : σ → ι → Prop) where
  state : Nat → σ
  input : Nat → Option ι
  init : M.init (state 0)
  next : ∀ n, (input n = none ∧ state (n + 1) = state n) ∨
    ∃ i, input n = some i ∧ ok (state n) i ∧ M.step (state n) i = some (state (n + 1))

variable {n : Nat}

namespace Trace

variable {M : Machine σ ι} {ok : σ → ι → Prop} (τ : Trace M ok)

theorem reachable (n : Nat) : M.Reachable ok (τ.state n) := by
  induction n with
  | zero => exact .init τ.init
  | succ n ih =>
    rcases τ.next n with ⟨-, hs⟩ | ⟨_, -, hok, hst⟩
    · exact hs ▸ ih
    · exact ih.step hok hst

/-- What an input does at the time it is taken. -/
theorem step_of_input {i : ι} (h : τ.input n = some i) :
    ok (τ.state n) i ∧ M.step (τ.state n) i = some (τ.state (n + 1)) := by
  rcases τ.next n with ⟨hn, -⟩ | ⟨_, hj, hok, hs⟩
  · rw [h] at hn
    cases hn
  · cases h.symm.trans hj
    exact ⟨hok, hs⟩

/-- Every event that is due in a state of the trace occurs from there on. -/
def Fair (due : σ → List (σ → Option ι → Bool)) : Prop :=
  ∀ n, ∀ event ∈ due (τ.state n), ∃ m, n ≤ m ∧ event (τ.state m) (τ.input m) = true

end Trace

/-! ### Finite runs as traces -/

/-- The state after the first `n` inputs of a run, which stays when they are used up. -/
def stateAt (M : Machine σ ι) : σ → List ι → Nat → σ
  | s, i :: inputs, n + 1 => M.stateAt ((M.step s i).getD s) inputs n
  | s, _, _ => s

theorem stateAt_zero (M : Machine σ ι) (s : σ) (inputs : List ι) : M.stateAt s inputs 0 = s := by
  cases inputs with
  | nil => rfl
  | cons => rfl

theorem stateAt_nil (M : Machine σ ι) (s : σ) (n : Nat) : M.stateAt s [] n = s := by
  cases n with
  | zero => rfl
  | succ => rfl

variable {inputs : List ι}

theorem stateAt_of_length_le (M : Machine σ ι) (s : σ) (h : inputs.length ≤ n) :
    M.stateAt s inputs n = M.stateAt s inputs inputs.length := by
  induction inputs generalizing s n with
  | nil => rw [stateAt_nil, stateAt_nil]
  | cons _ _ ih =>
    cases n with
    | zero => exact absurd h (Nat.not_succ_le_zero _)
    | succ => exact ih _ (Nat.le_of_succ_le_succ h)

variable {M : Machine σ ι} {ok : σ → ι → Prop} {s : σ}

theorem stateAt_next (hok : M.RunOk ok s inputs) (hrn : (M.run s inputs).isSome) (n : Nat) :
    (inputs[n]? = none ∧ M.stateAt s inputs (n + 1) = M.stateAt s inputs n) ∨
      ∃ i, inputs[n]? = some i ∧ ok (M.stateAt s inputs n) i ∧
        M.step (M.stateAt s inputs n) i = some (M.stateAt s inputs (n + 1)) := by
  induction inputs generalizing s n with
  | nil => exact Or.inl ⟨rfl, by rw [stateAt_nil, stateAt_nil]⟩
  | cons i _ ih =>
    obtain ⟨t, hrn⟩ := Option.isSome_iff_exists.mp hrn
    obtain ⟨s', hs', hr⟩ := Option.bind_eq_some_iff.mp hrn
    have hn : (M.step s i).getD s = s' := by rw [hs', Option.getD_some]
    cases n with
    | zero =>
      refine Or.inr ⟨i, rfl, hok.1, ?_⟩
      rw [stateAt_zero, stateAt, stateAt_zero, hn, hs']
    | succ n =>
      simp only [stateAt, hn, List.getElem?_cons_succ]
      exact ih (hok.2 s' hs') (Option.isSome_iff_exists.mpr ⟨t, hr⟩) n

/-- A finite run, paused forever after its last input. -/
def Trace.ofRun {inputs : List ι} (hi : M.init s)
    (hok : M.RunOk ok s inputs) (hr : (M.run s inputs).isSome) : Trace M ok where
  state := M.stateAt s inputs
  input := fun n => inputs[n]?
  init := (M.stateAt_zero s inputs).symm ▸ hi
  next := stateAt_next hok hr

def occurs (M : Machine σ ι) (event : σ → Option ι → Bool) : σ → List ι → Bool
  | _, [] => false
  | s, i :: inputs => event s (some i) || M.occurs event ((M.step s i).getD s) inputs

/-- The test that everything due along a finite run occurs in it. -/
def checkFair (M : Machine σ ι) (due : σ → List (σ → Option ι → Bool)) : σ → List ι → Bool
  | s, [] => (due s).isEmpty
  | s, i :: inputs => (due s).all (fun event => M.occurs event s (i :: inputs)) &&
      M.checkFair due ((M.step s i).getD s) inputs

theorem exists_of_occurs {event : σ → Option ι → Bool} (h : M.occurs event s inputs = true) :
    ∃ m, event (M.stateAt s inputs m) inputs[m]? = true := by
  induction inputs generalizing s with
  | nil => cases h
  | cons _ _ ih =>
    rcases Bool.or_eq_true_iff.mp h with h | h
    · exact ⟨0, h⟩
    · obtain ⟨m, hm⟩ := ih h
      exact ⟨m + 1, hm⟩

variable {due : σ → List (σ → Option ι → Bool)}

theorem exists_of_checkFair (h : M.checkFair due s inputs = true) (n : Nat) :
    ∀ event ∈ due (M.stateAt s inputs n), ∃ m, n ≤ m ∧
      event (M.stateAt s inputs m) inputs[m]? = true := by
  intro event he
  induction inputs generalizing s n with
  | nil =>
    rw [stateAt_nil, List.isEmpty_iff.mp h] at he
    cases he
  | cons _ _ ih =>
    obtain ⟨hn, hl⟩ := Bool.and_eq_true_iff.mp h
    cases n with
    | zero =>
      obtain ⟨m, hm⟩ := exists_of_occurs (List.all_eq_true.mp hn event he)
      exact ⟨m, Nat.zero_le m, hm⟩
    | succ n =>
      obtain ⟨m, hm, ho⟩ := ih hl n he
      exact ⟨m + 1, Nat.succ_le_succ hm, ho⟩

theorem Trace.ofRun_fair (hi : M.init s) (hok : M.RunOk ok s inputs) (hr : (M.run s inputs).isSome)
    (h : M.checkFair due s inputs = true) : (Trace.ofRun hi hok hr).Fair due :=
  exists_of_checkFair h

/-! ### Rules -/

/-- An event that occurs has a first occurrence. -/
theorem exists_first {P : Nat → Prop} (h : ∃ m, n ≤ m ∧ P m) :
    ∃ m, n ≤ m ∧ P m ∧ ∀ k, n ≤ k → k < m → ¬ P k := by
  classical
  refine ⟨Nat.find h, (Nat.find_spec h).1, (Nat.find_spec h).2, fun k hk hlt hP => ?_⟩
  exact Nat.find_min h hlt ⟨hk, hP⟩

/-- A property that is kept at every moment before `m` holds at `m`. -/
theorem holds_until {P : Nat → Prop} {m : Nat} (hle : n ≤ m) (h : P n)
    (hs : ∀ k, n ≤ k → k < m → P k → P (k + 1)) : P m := by
  induction m, hle using Nat.le_induction with
  | base => exact h
  | succ m hle ih =>
    exact hs m hle (Nat.lt_succ_self m) (ih fun k hk hlt => hs k hk (hlt.trans m.lt_succ_self))

/-- A measure that never grows is constant from some moment on. -/
theorem settles {f : Nat → Nat} (h : ∀ k, n ≤ k → f (k + 1) ≤ f k) :
    ∃ m, n ≤ m ∧ ∀ k, m ≤ k → f k = f m := by
  have ha : ∀ m k, n ≤ m → m ≤ k → f k ≤ f m := by
    intro m k hm hk
    exact holds_until (P := fun k => f k ≤ f m) hk le_rfl fun j hj _ hle =>
      (h j (hm.trans hj)).trans hle
  generalize hv : f n = v
  induction v using Nat.strongRecOn generalizing n with
  | ind _ ih =>
    by_cases hd : ∃ m, n ≤ m ∧ f m < f n
    · obtain ⟨m, hm, hlt⟩ := hd
      obtain ⟨m', hm', hconst⟩ := ih (f m) (hv ▸ hlt) (fun k hk => h k (hm.trans hk))
        (fun i k hi hk => ha i k (hm.trans hi) hk) rfl
      exact ⟨m', hm.trans hm', hconst⟩
    · refine ⟨n, le_rfl, fun k hk => le_antisymm (ha n k le_rfl hk) ?_⟩
      exact not_lt.mp fun hlt => hd ⟨k, hk, hlt⟩

/-- Finitely many things that each happen for good have all happened at some moment. -/
theorem eventually_forall {α : Type u} {P : α → Nat → Prop} (l : List α)
    (h : ∀ a ∈ l, ∃ m, n ≤ m ∧ ∀ k, m ≤ k → P a k) : ∃ m, n ≤ m ∧ ∀ k, m ≤ k → ∀ a ∈ l, P a k := by
  induction l with
  | nil => exact ⟨n, le_rfl, fun k _ a ha => absurd ha List.not_mem_nil⟩
  | cons a _ ih =>
    obtain ⟨m, hm, hl⟩ := ih fun b hb => h b (List.mem_cons_of_mem a hb)
    obtain ⟨m', hm', ha⟩ := h a List.mem_cons_self
    refine ⟨max m m', hm.trans (le_max_left m m'), fun k hk b hb => ?_⟩
    rcases List.mem_cons.mp hb with rfl | hb
    · exact ha k ((le_max_right m m').trans hk)
    · exact hl k ((le_max_left m m').trans hk) b hb

end Machine
