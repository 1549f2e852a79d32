import Mathlib.Order.Defs.Unbundled

/-!
# Programs that throw and may not end

`Program ε σ α` is a program over a state `σ` that may throw, keeping what it did to the state
before, and may run forever.  `Program.Wp` is its weakest precondition: what a run from a state
ends in, or no end at all if `total` is not asked for.  Every construct has one rule, a `simp`
lemma, so `simp only [wp rules]` turns a goal about a program into one about its steps.

* `wp_bind`, `wp_attempt`: sequence and exception handler.
* `wp_forEach`: a loop over a list, by an invariant of the rest of the list.
-/

namespace BitShares

/-- A program over a state.  A throw keeps the state; `none` is a run without end. -/
def Program (ε σ α : Type) : Type := σ → Option (Except ε α × σ)

namespace Program

variable {ε σ α β : Type}

instance : Monad (Program ε σ) where
  pure a := fun s => some (.ok a, s)
  bind x f := fun s =>
    match x s with
    | none => none
    | some (.error e, s') => some (.error e, s')
    | some (.ok a, s') => f a s'

theorem bind_apply (x : Program ε σ α) (f : α → Program ε σ β) (s : σ) :
    (x >>= f) s = match x s with
      | none => none
      | some (.error e, s') => some (.error e, s')
      | some (.ok a, s') => f a s' := rfl

def fail (e : ε) : Program ε σ α := fun s => some (.error e, s)

def forever : Program ε σ α := fun _ => none

def get : Program ε σ σ := fun s => some (.ok s, s)

theorem get_bind (f : σ → Program ε σ α) (s : σ) : (get >>= f) s = f s s := rfl

def update (f : σ → σ) : Program ε σ Unit := fun s => some (.ok (), f s)

def need (o : Option α) (e : ε) : Program ε σ α := fun s =>
  match o with
  | some a => some (.ok a, s)
  | none => some (.error e, s)

/-- `try … catch`. -/
def attempt (x : Program ε σ α) (handle : ε → Program ε σ α) : Program ε σ α := fun s =>
  match x s with
  | none => none
  | some (.error e, s') => handle e s'
  | some (.ok a, s') => some (.ok a, s')

def forEach (f : α → Program ε σ Unit) : List α → Program ε σ Unit
  | [] => pure ()
  | a :: l => do
    f a
    forEach f l

/-! ## Weakest preconditions -/

/-- A run of `x` from `s` ends with `Q`; unless `total` is asked for it may also not end. -/
def Wp (total : Prop) (x : Program ε σ α) (s : σ) (Q : Except ε α → σ → Prop) : Prop :=
  match x s with
  | some (r, s') => Q r s'
  | none => ¬ total

variable {total : Prop} {s : σ} {Q Q' : Except ε α → σ → Prop} {R : Except ε β → σ → Prop}

theorem Wp.mono {x : Program ε σ α} (h : Wp total x s Q) (hQ : ∀ r s', Q r s' → Q' r s') :
    Wp total x s Q' := by
  unfold Wp at h ⊢
  split
  · rename_i r s' heq
    rw [heq] at h
    exact hQ r s' h
  · rename_i heq
    rw [heq] at h
    exact h

theorem Wp.of_eq {x : Program ε σ α} (h : Wp total x s Q) {r : Except ε α} {s' : σ}
    (hx : x s = some (r, s')) : Q r s' := by
  rw [Wp, hx] at h
  exact h

theorem Wp.ends {x : Program ε σ α} (h : Wp True x s Q) : ∃ r s', x s = some (r, s') ∧ Q r s' := by
  unfold Wp at h
  split at h
  · rename_i r s' heq
    exact ⟨r, s', heq, h⟩
  · exact absurd trivial h

@[simp] theorem wp_pure (a : α) : Wp total (pure a : Program ε σ α) s Q ↔ Q (.ok a) s := Iff.rfl

@[simp] theorem wp_fail (e : ε) : Wp total (fail e : Program ε σ α) s Q ↔ Q (.error e) s := Iff.rfl

@[simp] theorem wp_get {Q : Except ε σ → σ → Prop} : Wp total (get : Program ε σ σ) s Q ↔ Q (.ok s) s :=
  Iff.rfl

@[simp] theorem wp_update (f : σ → σ) {Q : Except ε Unit → σ → Prop} :
    Wp total (update f : Program ε σ Unit) s Q ↔ Q (.ok ()) (f s) := Iff.rfl

@[simp] theorem wp_need (o : Option α) (e : ε) :
    Wp total (need o e : Program ε σ α) s Q ↔
      (∀ a, o = some a → Q (.ok a) s) ∧ (o = none → Q (.error e) s) := by
  cases o <;> simp [Wp, need]

@[simp] theorem wp_bind (x : Program ε σ α) (f : α → Program ε σ β) :
    Wp total (x >>= f) s R ↔ Wp total x s fun r s' =>
      match r with
      | .ok a => Wp total (f a) s' R
      | .error e => R (.error e) s' := by
  unfold Wp
  rw [bind_apply]
  cases x s with
  | none => rfl
  | some p => obtain ⟨r, s'⟩ := p; cases r <;> rfl

@[simp] theorem wp_attempt (x : Program ε σ α) (handle : ε → Program ε σ α) :
    Wp total (attempt x handle) s Q ↔ Wp total x s fun r s' =>
      match r with
      | .ok a => Q (.ok a) s'
      | .error e => Wp total (handle e) s' Q := by
  unfold Wp attempt
  cases x s with
  | none => rfl
  | some p => obtain ⟨r, s'⟩ := p; cases r <;> rfl

/-- A loop over a list.  The invariant is about the elements that are still to come; what a throw
leaves is shown at once. -/
theorem wp_forEach {f : α → Program ε σ Unit} (I : List α → σ → Prop) {E : ε → σ → Prop}
    (hstep : ∀ a l s, I (a :: l) s → Wp total (f a) s fun r s' =>
      match r with
      | .ok _ => I l s'
      | .error e => E e s') :
    ∀ l s, I l s → Wp total (forEach f l) s fun r s' =>
      match r with
      | .ok _ => I [] s'
      | .error e => E e s' := by
  intro l
  induction l with
  | nil => exact fun s h => h
  | cons a l ih =>
    intro s h
    rw [forEach, wp_bind]
    refine (hstep a l s h).mono fun r s' hr => ?_
    cases r with
    | ok _ => exact ih s' hr
    | error e => exact hr

end Program

end BitShares
