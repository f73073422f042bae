import Mathlib.Tactic.Common

/-! Programs over a mutable state that may stop with an error, and the rules
of their pre- and postconditions. Nothing here depends on what the state is. -/

/-- A program reads and writes a state of type `σ`, and either returns a
value with the new state or stops with an error, in which case there is no
new state. -/
def Program (σ ε α : Type) : Type := σ → Except ε (α × σ)

namespace Program

variable {σ ε α β : Type}

def ret (a : α) : Program σ ε α := fun s => .ok (a, s)

def andThen (x : Program σ ε α) (f : α → Program σ ε β) : Program σ ε β := fun s =>
  match x s with
  | .ok (a, t) => f a t
  | .error e => .error e

instance : Monad (Program σ ε) where
  pure := ret
  bind := andThen

def read : Program σ ε σ := fun s => .ok (s, s)

def modify (f : σ → σ) : Program σ ε Unit := fun s => .ok ((), f s)

def stop (e : ε) : Program σ ε α := fun _ => .error e

@[simp] theorem pure_apply (a : α) (s : σ) : (pure a : Program σ ε α) s = .ok (a, s) := rfl

@[simp] theorem read_apply (s : σ) : (read : Program σ ε σ) s = .ok (s, s) := rfl

@[simp] theorem modify_apply (f : σ → σ) (s : σ) :
    (modify f : Program σ ε Unit) s = .ok ((), f s) := rfl

@[simp] theorem stop_apply (e : ε) (s : σ) : (stop e : Program σ ε α) s = .error e := rfl

/-- A sequence hands on the state and the result, or stops where its first part stops. The
other equations of the section read off one primitive each. -/
theorem bind_apply (x : Program σ ε α) (f : α → Program σ ε β) (s : σ) :
    (x >>= f) s = match x s with
      | .ok (a, t) => f a t
      | .error e => .error e := rfl

/-- The first part of a sequence returns, and the rest goes on from there. Proofs that follow a
run step by step rewrite with this. -/
theorem bind_ok {x : Program σ ε α} {f : α → Program σ ε β} {s t : σ} {a : α}
    (h : x s = .ok (a, t)) : (x >>= f) s = f a t := by
  rw [bind_apply, h]

/-- A program that goes on like `y` from `t` does so also before a continuation. -/
theorem bind_congr {x y : Program σ ε α} {f : α → Program σ ε β} {s t : σ} (h : x s = y t) :
    (x >>= f) s = (y >>= f) t := by
  rw [bind_apply, bind_apply, h]

/-- A program that returned went through a state between its two parts. -/
theorem bind_eq_ok {x : Program σ ε α} {f : α → Program σ ε β} {s t : σ} {b : β} :
    (x >>= f) s = .ok (b, t) ↔ ∃ a u, x s = .ok (a, u) ∧ f a u = .ok (b, t) := by
  rw [bind_apply]
  cases h : x s with
  | error e => simp
  | ok r =>
      obtain ⟨a, u⟩ := r
      simp

/-- The outcome of `x` from `s` satisfies `Q` when it returns and `E` when it
stops with an error. -/
def Meets (x : Program σ ε α) (s : σ) (Q : α → σ → Prop) (E : ε → Prop) : Prop :=
  match x s with
  | .ok (a, t) => Q a t
  | .error e => E e

/-- Total correctness: `x` returns from `s`, and what it returns satisfies `Q`. -/
def Returns (x : Program σ ε α) (s : σ) (Q : α → σ → Prop) : Prop :=
  x.Meets s Q fun _ => False

section Rules

variable {s t : σ} {a : α} {Q R : α → σ → Prop} {E F : ε → Prop}

/-- A run that is known to return meets exactly what its end satisfies. This turns a computed
run into a specification. -/
theorem meets_of_ok {x : Program σ ε α} (h : x s = .ok (a, t)) : x.Meets s Q E ↔ Q a t := by
  unfold Meets
  rw [h]

/-- A run that is known to stop meets exactly what its error satisfies. -/
theorem meets_of_error {x : Program σ ε α} {e : ε} (h : x s = .error e) :
    x.Meets s Q E ↔ E e := by
  unfold Meets
  rw [h]

@[simp] theorem meets_pure : (pure a : Program σ ε α).Meets s Q E ↔ Q a s := Iff.rfl

@[simp] theorem meets_read {P : σ → σ → Prop} :
    (read : Program σ ε σ).Meets s P E ↔ P s s := Iff.rfl

@[simp] theorem meets_modify {f : σ → σ} {P : Unit → σ → Prop} :
    (modify f : Program σ ε Unit).Meets s P E ↔ P () (f s) := Iff.rfl

@[simp] theorem meets_stop {e : ε} : (stop e : Program σ ε α).Meets s Q E ↔ E e := Iff.rfl

/-- Sequencing: the second part starts where the first one returned. An error of the first part
is one of the whole. -/
@[simp] theorem meets_bind {x : Program σ ε α} {f : α → Program σ ε β} {P : β → σ → Prop} :
    (x >>= f).Meets s P E ↔ x.Meets s (fun a t => (f a).Meets t P E) E := by
  unfold Meets
  rw [bind_apply]
  cases x s <;> rfl

/-- A program that goes on like `y` from `t` meets what `y` meets there. -/
theorem meets_congr {x y : Program σ ε α} (h : x s = y t) : x.Meets s Q E ↔ y.Meets t Q E := by
  unfold Meets
  rw [h]

/-- The rule of consequence, for results and for errors. The state at the start is the same. -/
theorem Meets.mono {x : Program σ ε α} (h : x.Meets s Q E)
    (hQ : ∀ a t, Q a t → R a t) (hE : ∀ e, E e → F e) : x.Meets s R F := by
  unfold Meets at h ⊢
  cases hx : x s with
  | error e =>
      rw [hx] at h
      exact hE e h
  | ok r =>
      rw [hx] at h
      exact hQ _ _ h

/-- Wherever `x` starts, it stops with errors in `E` only. -/
def FailsWith (x : Program σ ε α) (E : ε → Prop) : Prop := ∀ s, x.Meets s (fun _ _ => True) E

theorem FailsWith.of_pure : (pure a : Program σ ε α).FailsWith E := fun _ => trivial

theorem FailsWith.of_read : (read : Program σ ε σ).FailsWith E := fun _ => trivial

theorem FailsWith.of_modify {f : σ → σ} : (modify f : Program σ ε Unit).FailsWith E :=
  fun _ => trivial

theorem FailsWith.of_stop {e : ε} (he : E e) : (stop e : Program σ ε α).FailsWith E := fun _ => he

/-- A sequence fails where its parts do, whatever the state in between is. There is nothing to
find for that state. -/
theorem FailsWith.bind {x : Program σ ε α} {f : α → Program σ ε β} (hx : x.FailsWith E)
    (hf : ∀ a, (f a).FailsWith E) : (x >>= f).FailsWith E := by
  intro s
  rw [meets_bind]
  exact (hx s).mono (fun a t _ => hf a t) fun _ he => he

/-- Both alternatives have to fail as is said, as the condition is not looked at. -/
theorem FailsWith.ite {c : Prop} [Decidable c] {x y : Program σ ε α} (hx : x.FailsWith E)
    (hy : y.FailsWith E) : (if c then x else y).FailsWith E := by
  split
  · exact hx
  · exact hy

/-- A call that returns meets every specification that only restricts its
return, whatever that specification allows as an error. -/
theorem Returns.meets {x : Program σ ε α} (h : x.Returns s Q)
    (hQ : ∀ a t, Q a t → R a t) : x.Meets s R E :=
  Meets.mono h hQ fun _ h => h.elim

/-- To return is to reach a result and a state, and to have the property there. -/
theorem returns_iff {x : Program σ ε α} : x.Returns s Q ↔ ∃ a t, x s = .ok (a, t) ∧ Q a t := by
  unfold Returns Meets
  cases x s with
  | error e => simp
  | ok r =>
      obtain ⟨a, t⟩ := r
      simp

theorem Returns.of_ok {x : Program σ ε α} (h : x.Returns s Q) (hx : x s = .ok (a, t)) : Q a t :=
  (meets_of_ok hx).mp h

/-- What is said of the results of a run holds of the end that is known. -/
theorem Meets.of_ok {x : Program σ ε α} (h : x.Meets s Q E) (hx : x s = .ok (a, t)) : Q a t :=
  (meets_of_ok hx).mp h

/-- What is said of the errors of a run holds of the error that is known. -/
theorem Meets.of_error {x : Program σ ε α} {e : ε} (h : x.Meets s Q E)
    (hx : x s = .error e) : E e :=
  (meets_of_error hx).mp h

end Rules

/-- `x` is `y` cut off: it stops with `e` wherever it does not do the same as `y`. -/
def CutOff (e : ε) (x y : Program σ ε α) : Prop := ∀ s, x s = .error e ∨ x s = y s

section CutOff

variable {e : ε}

theorem CutOff.rfl {x : Program σ ε α} : CutOff e x x := fun _ => Or.inr (Eq.refl _)

/-- What stops with the error of a cut-off is one of any program. -/
theorem CutOff.of_stop {y : Program σ ε α} : CutOff e (stop e) y := fun _ => Or.inl (Eq.refl _)

/-- The condition is the same on both sides, so the alternatives are compared. -/
theorem CutOff.ite {c : Prop} [Decidable c] {x y x' y' : Program σ ε α} (hx : CutOff e x x')
    (hy : CutOff e y y') : CutOff e (if c then x else y) (if c then x' else y') := by
  split
  · exact hx
  · exact hy

/-- A sequence: when the first part is cut off, so is the whole, and else both go on from the
same state. -/
theorem CutOff.bind {x y : Program σ ε α} {f g : α → Program σ ε β} (hx : CutOff e x y)
    (hf : ∀ a, CutOff e (f a) (g a)) : CutOff e (x >>= f) (y >>= g) := by
  intro s
  rw [bind_apply, bind_apply]
  rcases hx s with hStop | hSame
  · rw [hStop]
    exact Or.inl (Eq.refl _)
  · rw [← hSame]
    cases x s with
    | error d => exact Or.inr (Eq.refl _)
    | ok r => exact hf r.1 r.2

/-- A cut-off program that was not stopped by the cut has run like the whole one. -/
theorem CutOff.eq {x y : Program σ ε α} (h : CutOff e x y) {s : σ} (hs : x s ≠ .error e) :
    x s = y s :=
  (h s).resolve_left hs

end CutOff

end Program
