import Mathlib.Logic.Function.Iterate
import Mathlib.Tactic.Common

/-! Loops: counted loops whose body may raise an error, and loops under a
guard, which may run forever. -/

namespace Loop

section Counted

variable {σ ε : Type} {n : Nat} {body : Nat → σ → Except ε σ} {s : σ}

/-- Run the body for `0, …, n - 1`. -/
def forRange (n : Nat) (body : Nat → σ → Except ε σ) (s : σ) : Except ε σ :=
  (List.range n).foldlM (fun t k => body k t) s

@[simp] theorem forRange_zero : forRange 0 body s = .ok s := rfl

theorem forRange_succ : forRange (n + 1) body s = forRange n body s >>= body n := by
  rw [forRange, List.range_succ, List.foldlM_append, forRange]
  simp

/-- A loop depends on its body at the indices that it runs through, and on no other. Nothing
need be known of the body beyond them. -/
theorem forRange_congr {body' : Nat → σ → Except ε σ} (h : ∀ k < n, ∀ t, body k t = body' k t)
    (s : σ) : forRange n body s = forRange n body' s := by
  induction n with
  | zero => rfl
  | succ n ih =>
      rw [forRange_succ, forRange_succ, ih fun k hk => h k (by omega)]
      exact bind_congr fun t => h n (Nat.lt_succ_self n) t

/-- An invariant that the body carries from each index to the next holds at the end. The loop
then raises nothing. -/
theorem forRange_ok {I : Nat → σ → Prop} (hStart : I 0 s)
    (hStep : ∀ k < n, ∀ t, I k t → ∃ u, body k t = .ok u ∧ I (k + 1) u) :
    ∃ t, forRange n body s = .ok t ∧ I n t := by
  induction n with
  | zero => exact ⟨s, rfl, hStart⟩
  | succ n ih =>
      obtain ⟨t, hRun, hInv⟩ := ih fun k hk => hStep k (by omega)
      obtain ⟨u, hBody, hNext⟩ := hStep n (Nat.lt_succ_self n) t hInv
      refine ⟨u, ?_, hNext⟩
      rw [forRange_succ, hRun]
      exact hBody

/-- A loop whose states are known at every index ends in the last of them. The states are given
as a function of the index. -/
theorem forRange_eq {f : Nat → σ} (hStart : s = f 0)
    (hStep : ∀ k < n, body k (f k) = .ok (f (k + 1))) : forRange n body s = .ok (f n) := by
  have hRun : ∃ t, forRange n body s = .ok t ∧ t = f n :=
    forRange_ok (I := fun k t => t = f k) hStart fun k hk t hInv => ⟨_, hInv ▸ hStep k hk, rfl⟩
  obtain ⟨t, hRun, rfl⟩ := hRun
  exact hRun

/-- A loop raises what its body raises at an index that is reached, whatever would come after
it. -/
theorem forRange_error {I : Nat → σ → Prop} {k : Nat} {e : ε} (hk : k < n) (hStart : I 0 s)
    (hStep : ∀ j < k, ∀ t, I j t → ∃ u, body j t = .ok u ∧ I (j + 1) u)
    (hRaise : ∀ t, I k t → body k t = .error e) : forRange n body s = .error e := by
  induction n with
  | zero => omega
  | succ n ih =>
      rw [forRange_succ]
      by_cases hLast : k = n
      · subst hLast
        obtain ⟨t, hRun, hInv⟩ := forRange_ok hStart hStep
        rw [hRun]
        exact hRaise t hInv
      · rw [ih (by omega)]
        rfl

/-- The case where the body does not depend on what came before. -/
theorem forRange_raises {k : Nat} {e : ε} (hk : k < n)
    (hStep : ∀ j < k, ∀ t, ∃ u, body j t = .ok u) (hRaise : ∀ t, body k t = .error e) :
    forRange n body s = .error e := by
  refine forRange_error (I := fun _ _ => True) hk trivial (fun j hj t _ => ?_) fun t _ => hRaise t
  obtain ⟨u, hBody⟩ := hStep j hj t
  exact ⟨u, hBody, trivial⟩

end Counted

section Guarded

variable {σ : Type} {guard : σ → Bool} {body : σ → Option σ} {fuel : Nat} {s t : σ}

/-- Run the body while the guard holds, at most `fuel` times; `none` when the
guard still holds then, or when a body does not end. -/
def whileDo (guard : σ → Bool) (body : σ → Option σ) : Nat → σ → Option σ
  | 0, _ => none
  | fuel + 1, s => if guard s then (body s).bind (whileDo guard body fuel) else some s

/-- A round of the loop, which takes one of the steps that are left. With no step left there is
no round. -/
theorem whileDo_of_guard (h : guard s = true) :
    whileDo guard body (fuel + 1) s = (body s).bind (whileDo guard body fuel) := if_pos h

/-- A loop whose guard fails does not run, and needs one step to find that out. -/
theorem whileDo_exit (h : guard s = false) : whileDo guard body (fuel + 1) s = some s := by
  rw [whileDo, h]
  rfl

/-- What the body preserves under the guard holds when the loop ends, and the
guard does not. -/
theorem whileDo_invariant {I : σ → Prop} (hStart : I s)
    (hStep : ∀ u v, I u → guard u = true → body u = some v → I v)
    (hRun : whileDo guard body fuel s = some t) : I t ∧ guard t = false := by
  induction fuel generalizing s with
  | zero => cases hRun
  | succ fuel ih =>
      cases hGuard : guard s with
      | false =>
          rw [whileDo_exit hGuard] at hRun
          obtain rfl := Option.some.inj hRun
          exact ⟨hStart, hGuard⟩
      | true =>
          rw [whileDo_of_guard hGuard] at hRun
          obtain ⟨u, hBody, hRest⟩ := Option.bind_eq_some_iff.mp hRun
          exact ih (hStep s u hStart hGuard hBody) hRest

/-- More fuel, and a body that ends more often, keep the result. So it does not matter which
fuel a result was found with. -/
theorem whileDo_mono {body' : σ → Option σ} {fuel' : Nat} (hFuel : fuel ≤ fuel')
    (hBody : ∀ u v, body u = some v → body' u = some v)
    (hRun : whileDo guard body fuel s = some t) : whileDo guard body' fuel' s = some t := by
  induction fuel generalizing s fuel' with
  | zero => cases hRun
  | succ fuel ih =>
      obtain ⟨fuel', rfl⟩ := Nat.exists_eq_add_of_le' (Nat.le_of_add_left_le hFuel)
      cases hGuard : guard s with
      | false =>
          rw [whileDo_exit hGuard] at hRun ⊢
          exact hRun
      | true =>
          rw [whileDo_of_guard hGuard] at hRun ⊢
          obtain ⟨u, hu, hRest⟩ := Option.bind_eq_some_iff.mp hRun
          exact Option.bind_eq_some_iff.mpr ⟨u, hBody s u hu, ih (by omega) hRest⟩

/-- A loop with a body that always ends stops once an iterate of the body fails
the guard. -/
theorem whileDo_iterate_ends {f : σ → σ} {k : Nat} (h : guard (f^[k] s) = false) :
    ∃ t, whileDo guard (fun u => some (f u)) (k + 1) s = some t := by
  induction k generalizing s with
  | zero => exact ⟨s, whileDo_exit h⟩
  | succ k ih =>
      cases hGuard : guard s with
      | false => exact ⟨s, whileDo_exit hGuard⟩
      | true =>
          obtain ⟨t, hRun⟩ := ih (s := f s) h
          exact ⟨t, (whileDo_of_guard hGuard).trans hRun⟩

/-- It stops at such an iterate. -/
theorem whileDo_iterate {f : σ → σ}
    (hRun : whileDo guard (fun u => some (f u)) fuel s = some t) :
    ∃ k, t = f^[k] s ∧ guard t = false := by
  obtain ⟨⟨k, hk⟩, hExit⟩ := whileDo_invariant (I := fun u => ∃ k, u = f^[k] s) ⟨0, rfl⟩
    (fun u v ⟨k, hk⟩ _ hBody => ⟨k + 1, by
      rw [Function.iterate_succ_apply', ← hk, ← Option.some.inj hBody]⟩) hRun
  exact ⟨k, hk, hExit⟩

/-- A loop whose bodies end, each with enough fuel, and bring a measure down ends. The fuel for
the whole is the greatest that a body needs, and one for each round. -/
theorem whileDo_ends {step : Nat → σ → Option σ} (measure : σ → Nat)
    (hMono : ∀ fuel fuel' u v, fuel ≤ fuel' → step fuel u = some v → step fuel' u = some v)
    (hStep : ∀ u, guard u = true → ∃ fuel v, step fuel u = some v ∧ measure v < measure u) (s : σ) :
    ∃ fuel t, whileDo guard (step fuel) fuel s = some t := by
  induction hn : measure s using Nat.strongRecOn generalizing s with
  | ind n ih =>
      cases hGuard : guard s with
      | false => exact ⟨1, s, whileDo_exit hGuard⟩
      | true =>
          obtain ⟨fuel, u, hBody, hLess⟩ := hStep s hGuard
          obtain ⟨fuel', t, hRun⟩ := ih _ (hn ▸ hLess) u rfl
          refine ⟨max fuel fuel' + 1, t, ?_⟩
          rw [whileDo_of_guard hGuard, hMono fuel _ s u (by omega) hBody]
          exact whileDo_mono (by omega) (fun v w => hMono _ _ v w (by omega)) hRun

end Guarded

end Loop
