import Mathlib.Logic.Function.Iterate

/-! # Simulation of one machine by another

Two deterministic machines that show something, and a relation between their states.  One step of the
first is matched by some number of steps of the second, which keeps showing the same up to the last of
them.  No steps at all are allowed too, as long as a rank falls meanwhile.

Then the second machine comes by every state that matches one of the first (`Simulation.reaches`), and
at every moment it stands between two such states (`Simulation.covers`). -/

namespace MipsLowering

variable {A B O : Type} {next : A → A} {step : B → B} {seen : A → O} {shown : B → O}
  {R : A → B → Prop} {rank : A → Nat}

/-- A stretch of `n` steps that matches one step from `a`. -/
structure Stretch (next : A → A) (step : B → B) (seen : A → O) (shown : B → O) (R : A → B → Prop)
    (a : A) (b : B) (n : Nat) : Prop where
  arrives : R (next a) (step^[n] b)
  silent : ∀ i < n, shown (step^[i] b) = seen a

structure Simulation (next : A → A) (step : B → B) (seen : A → O) (shown : B → O) (R : A → B → Prop)
    (rank : A → Nat) : Prop where
  agrees : ∀ a b, R a b → shown b = seen a
  matched : ∀ a b, R a b →
    ∃ n, Stretch next step seen shown R a b n ∧ (n = 0 → rank (next a) < rank a)

namespace Simulation

variable (simulation : Simulation next step seen shown R rank) {a : A} {b : B}

include simulation

theorem reaches (related : R a b) (n : Nat) : ∃ k, R (next^[n] a) (step^[k] b) := by
  induction n with
  | zero => exact ⟨0, related⟩
  | succ n ih =>
    obtain ⟨k, there⟩ := ih
    obtain ⟨m, stretch, _⟩ := simulation.matched _ _ there
    refine ⟨m + k, ?_⟩
    rw [Function.iterate_succ_apply', Function.iterate_add_apply]
    exact stretch.arrives

/-- After finitely many steps without a match there is one with a match. -/
theorem moves (related : R a b) :
    ∃ n m, 0 < m ∧ R (next^[n] a) b ∧ Stretch next step seen shown R (next^[n] a) b m := by
  -- The rank cannot fall for ever, so the first machine comes to a step that is matched.
  induction fuel : rank a using Nat.strongRecOn generalizing a with
  | ind fuel ih =>
    obtain ⟨m, stretch, falls⟩ := simulation.matched a b related
    rcases Nat.eq_zero_or_pos m with rfl | positive
    · obtain ⟨n, m, positive, there, stretch'⟩ := ih _ (fuel ▸ falls rfl) stretch.arrives rfl
      exact ⟨n + 1, m, positive, there, stretch'⟩
    · exact ⟨0, m, positive, related, stretch⟩

/-- At every moment the second machine is on a stretch that matches a step of the first. -/
theorem covers (related : R a b) (k : Nat) :
    ∃ n start m, start ≤ k ∧ k < start + m ∧
      Stretch next step seen shown R (next^[n] a) (step^[start] b) m := by
  induction k with
  | zero =>
    obtain ⟨n, m, positive, _, stretch⟩ := simulation.moves related
    exact ⟨n, 0, m, Nat.le_refl 0, by omega, stretch⟩
  | succ k ih =>
    obtain ⟨n, start, m, low, high, stretch⟩ := ih
    by_cases inside : k + 1 < start + m
    · exact ⟨n, start, m, by omega, inside, stretch⟩
    · -- The stretch ends here, and the next one begins.
      have ends : k + 1 = m + start := by omega
      rw [ends]
      have there : R (next^[n + 1] a) (step^[m + start] b) := by
        rw [Function.iterate_succ_apply', Function.iterate_add_apply]
        exact stretch.arrives
      obtain ⟨n', m', positive, _, stretch'⟩ := simulation.moves there
      rw [← Function.iterate_add_apply] at stretch'
      exact ⟨n' + (n + 1), m + start, m', Nat.le_refl _, by omega, stretch'⟩

/-- Both machines show the same. -/
theorem shows_iff (related : R a b) (o : O) :
    (∃ n, seen (next^[n] a) = o) ↔ ∃ k, shown (step^[k] b) = o := by
  constructor
  · rintro ⟨n, rfl⟩
    obtain ⟨k, there⟩ := simulation.reaches related n
    exact ⟨k, simulation.agrees _ _ there⟩
  · rintro ⟨k, rfl⟩
    obtain ⟨n, start, m, low, high, stretch⟩ := simulation.covers related k
    refine ⟨n, ?_⟩
    have silent := stretch.silent (k - start) (by omega)
    rw [← Function.iterate_add_apply, Nat.sub_add_cancel low] at silent
    exact silent.symm

/-- What holds of the second machine for good holds at a match. -/
theorem exists_match (related : R a b) {P : B → Prop} (stays : ∀ b, P b → P (step b)) {k : Nat}
    (holds : P (step^[k] b)) : ∃ n k', R (next^[n] a) (step^[k'] b) ∧ k ≤ k' ∧ P (step^[k'] b) := by
  obtain ⟨n, start, m, low, high, stretch⟩ := simulation.covers related k
  -- It still holds where the stretch ends, and there the machines match.
  have later : ∀ i, P (step^[i] (step^[k] b)) := by
    intro i
    induction i with
    | zero => exact holds
    | succ i ih => rw [Function.iterate_succ_apply']; exact stays _ ih
  refine ⟨n + 1, m + start, ?_, by omega, ?_⟩
  · rw [Function.iterate_succ_apply', Function.iterate_add_apply]
    exact stretch.arrives
  · have reached := later (m + start - k)
    rwa [← Function.iterate_add_apply, Nat.sub_add_cancel (by omega)] at reached

end Simulation

end MipsLowering
