import BitShares.Lib.Program

/-!
# Programs that keep a log

`Traced ε σ ω α` is a program over a state that also writes down what it looks at.  The log of a run
is there even if the run throws or does not end.

* `log_bind`: the log of a sequence.
* `Follows`: a program without a log that does the same on every run whose log meets a condition,
  with a rule for each construct.
-/

namespace BitShares

/-- A program with a log of entries `ω`. -/
def Traced (ε σ ω α : Type) : Type := σ → List ω × Option (Except ε α × σ)

namespace Traced

variable {ε σ ω α β : Type}

def next (f : α → Traced ε σ ω β) :
    List ω × Option (Except ε α × σ) → List ω × Option (Except ε β × σ)
  | (l, none) => (l, none)
  | (l, some (.error e, s)) => (l, some (.error e, s))
  | (l, some (.ok a, s)) => (l ++ (f a s).1, (f a s).2)

instance : Monad (Traced ε σ ω) where
  pure a := fun s => ([], some (.ok a, s))
  bind x f := fun s => next f (x s)

def lift (x : Program ε σ α) : Traced ε σ ω α := fun s => ([], x s)

def write (w : ω) : Traced ε σ ω Unit := fun s => ([w], some (.ok (), s))

/-- `try … catch`.  What was logged before a throw stays. -/
def attempt (x : Traced ε σ ω α) (handle : ε → Traced ε σ ω α) : Traced ε σ ω α := fun s =>
  match x s with
  | (l, none) => (l, none)
  | (l, some (.error e, s')) => (l ++ (handle e s').1, (handle e s').2)
  | (l, some (.ok a, s')) => (l, some (.ok a, s'))

def forEach (f : α → Traced ε σ ω Unit) : List α → Traced ε σ ω Unit
  | [] => pure ()
  | a :: l => do
    f a
    forEach f l

def erase (x : Traced ε σ ω α) : Program ε σ α := fun s => (x s).2

def log (x : Traced ε σ ω α) (s : σ) : List ω := (x s).1

@[simp] theorem erase_lift (x : Program ε σ α) : erase (lift x : Traced ε σ ω α) = x := rfl

@[simp] theorem erase_write (w : ω) : erase (write w : Traced ε σ ω Unit) = pure () := rfl

@[simp] theorem erase_bind (x : Traced ε σ ω α) (f : α → Traced ε σ ω β) :
    erase (x >>= f) = erase x >>= fun a => erase (f a) := by
  funext s
  change (next f (x s)).2 = (erase x >>= fun a => erase (f a)) s
  rw [Program.bind_apply, erase]
  rcases x s with ⟨l, _ | ⟨_ | a, s'⟩⟩ <;> rfl

@[simp] theorem log_write (w : ω) (s : σ) : log (write w : Traced ε σ ω Unit) s = [w] := rfl

theorem log_bind (x : Traced ε σ ω α) (f : α → Traced ε σ ω β) (s : σ) :
    log (x >>= f) s = log x s ++ match erase x s with
      | some (.ok a, s') => log (f a) s'
      | _ => [] := by
  change (next f (x s)).1 = _
  rw [log, erase]
  rcases x s with ⟨l, _ | ⟨_ | a, s'⟩⟩
  · exact (List.append_nil l).symm
  · exact (List.append_nil l).symm
  · rfl

/-! ## Programs without the log -/

/-- `y` does what `x` does on the runs whose log meets `P`. -/
def Follows (P : ω → Prop) (x : Traced ε σ ω α) (y : Program ε σ α) : Prop :=
  ∀ s, (∀ w ∈ log x s, P w) → erase x s = y s

variable {P : ω → Prop}

theorem follows_pure (a : α) : Follows P (pure a : Traced ε σ ω α) (pure a) := fun _ _ => rfl

theorem follows_lift (x : Program ε σ α) : Follows P (lift x : Traced ε σ ω α) x := fun _ _ => rfl

theorem follows_write (w : ω) : Follows P (write w : Traced ε σ ω Unit) (pure ()) := fun _ _ => rfl

theorem follows_bind {x : Traced ε σ ω α} {y : Program ε σ α} {f : α → Traced ε σ ω β}
    {g : α → Program ε σ β} (hx : Follows P x y) (hf : ∀ a, Follows P (f a) (g a)) :
    Follows P (x >>= f) (y >>= g) := by
  intro s hlog
  rw [log_bind, List.forall_mem_append] at hlog
  rw [erase_bind, Program.bind_apply, Program.bind_apply, ← hx s hlog.1]
  have hlog := hlog.2
  generalize erase x s = p at hlog ⊢
  rcases p with _ | ⟨_ | a, s'⟩
  · rfl
  · rfl
  · exact hf a s' hlog

theorem follows_attempt {x : Traced ε σ ω α} {y : Program ε σ α} {f : ε → Traced ε σ ω α}
    {g : ε → Program ε σ α} (hx : Follows P x y) (hf : ∀ e, Follows P (f e) (g e)) :
    Follows P (attempt x f) (Program.attempt y g) := by
  intro s hlog
  have hx := hx s
  rw [log] at hlog hx
  change (attempt x f s).2 = Program.attempt y g s
  rw [attempt] at hlog ⊢
  rw [erase] at hx
  rw [Program.attempt]
  generalize x s = p at hlog hx ⊢
  rcases p with ⟨l, _ | ⟨e | a, s'⟩⟩
  · rw [← hx hlog]
  · obtain ⟨hl, hrest⟩ := List.forall_mem_append.1 hlog
    rw [← hx hl]
    exact hf e s' hrest
  · rw [← hx hlog]

theorem follows_forEach {f : α → Traced ε σ ω Unit} {g : α → Program ε σ Unit}
    (hf : ∀ a, Follows P (f a) (g a)) (l : List α) :
    Follows P (forEach f l) (Program.forEach g l) := by
  induction l with
  | nil => exact follows_pure ()
  | cons a l ih => exact follows_bind (hf a) fun _ => ih

theorem Follows.erase_eq {x : Traced ε σ ω α} {y : Program ε σ α}
    (h : Follows (fun _ => True) x y) : erase x = y :=
  funext fun s => h s fun _ _ => trivial

end Traced

end BitShares
