

/-!
# Fallible steps

Guards and lookups of code that throws, as `Except` steps, and the lemmas that take a successful
run apart: `simp only [outcome lemmas] at h` turns `(do …) = .ok b` into the guards that held and
the values that were read.
-/

namespace BitShares

variable {ε α β : Type}

/-- Throw `e` unless `c` holds. -/
def require (c : Prop) [Decidable c] (e : ε) : Except ε Unit :=
  if c then .ok () else .error e

/-- The value of an optional, or throw `e`. -/
def expect (o : Option α) (e : ε) : Except ε α :=
  match o with
  | some a => .ok a
  | none => .error e

theorem bind_eq_ok {x : Except ε α} {f : α → Except ε β} {b : β} :
    (x >>= f) = .ok b ↔ ∃ a, x = .ok a ∧ f a = .ok b := by
  cases x <;> simp [bind, Except.bind]

theorem pure_eq_ok {a b : α} : (pure a : Except ε α) = .ok b ↔ a = b := by
  simp [pure, Except.pure]

theorem require_eq_ok {c : Prop} [Decidable c] {e : ε} {u : Unit} :
    require c e = .ok u ↔ c := by
  unfold require
  split <;> simp_all

theorem expect_eq_ok {o : Option α} {e : ε} {a : α} : expect o e = .ok a ↔ o = some a := by
  cases o <;> simp [expect]

theorem exists_ok_of_any {x : Except ε α} {p : α → Prop} [DecidablePred p]
    (h : x.toOption.any p = true) : ∃ a, x = .ok a ∧ p a := by
  cases x with
  | error e => cases h
  | ok a => exact ⟨a, rfl, by simpa [Except.toOption] using h⟩

theorem exists_some_of_any {o : Option α} {p : α → Prop} [DecidablePred p] (h : o.any p = true) :
    ∃ a, o = some a ∧ p a := by
  obtain ⟨a, ha, hp⟩ := (Option.any_eq_true _ _).1 h
  exact ⟨a, ha, of_decide_eq_true hp⟩

theorem exists_ok_of_isOk {x : Except ε α} (h : x.isOk = true) : ∃ a, x = .ok a := by
  cases x with
  | error e => cases h
  | ok a => exact ⟨a, rfl⟩

/-- What every successful step of a fold preserves, the whole fold preserves. -/
theorem foldlM_induction {step : β → α → Except ε β} (P : β → Prop) {l : List α} {b b' : β}
    (hstep : ∀ a ∈ l, ∀ b b', P b → step b a = .ok b' → P b') (h : l.foldlM step b = .ok b')
    (hb : P b) : P b' := by
  induction l generalizing b with
  | nil =>
    rw [List.foldlM_nil, pure_eq_ok] at h
    exact h ▸ hb
  | cons a l ih =>
    rw [List.foldlM_cons, bind_eq_ok] at h
    obtain ⟨c, hc, hrest⟩ := h
    exact ih (fun x hx => hstep x (List.mem_cons_of_mem a hx)) hrest
      (hstep a List.mem_cons_self b c hb hc)

/-- A fold of optional steps is related end to end as a run of them is. -/
theorem foldlM_run {step : β → α → Option β} {R : β → β → Prop} (hrefl : ∀ b, R b b) {l : List α}
    (hstep : ∀ b, ∀ a ∈ l, ∀ m b', step b a = some m → R m b' → R b b') {b b' : β}
    (h : l.foldlM step b = some b') : R b b' := by
  induction l generalizing b with
  | nil =>
    obtain rfl := Option.some.inj h
    exact hrefl b
  | cons a l ih =>
    obtain ⟨m, hm, hrest⟩ := Option.bind_eq_some_iff.1 h
    exact hstep b a List.mem_cons_self m b' hm
      (ih (fun b x hx => hstep b x (List.mem_cons_of_mem a hx)) hrest)

/-- A fold in which some steps leave a mark: `R` relates the two ends of a run, and its flag says
whether one of the steps did. -/
theorem foldlM_any {step : β → α → Except ε β} {R : Bool → β → β → Prop} {mark : α → Bool}
    (hrefl : ∀ b, R false b b) (htrans : ∀ c c' b m b', R c b m → R c' m b' → R (c || c') b b')
    (hstep : ∀ b a b', step b a = .ok b' → R (mark a) b b') {l : List α} {b b' : β}
    (h : l.foldlM step b = .ok b') : R (l.any mark) b b' := by
  induction l generalizing b with
  | nil =>
    rw [List.foldlM_nil, pure_eq_ok] at h
    exact h ▸ hrefl b
  | cons a l ih =>
    rw [List.foldlM_cons, bind_eq_ok] at h
    obtain ⟨m, hm, hrest⟩ := h
    rw [List.any_cons]
    exact htrans _ _ _ _ _ (hstep b a m hm) (ih hrest)

/-- The states in which the steps of a fold start, with what they are given. -/
def foldTrace (step : β → α → Except ε β) : β → List α → List (β × α)
  | _, [] => []
  | b, a :: l =>
    (b, a) :: match step b a with
      | .ok b' => foldTrace step b' l
      | .error _ => []

theorem foldlM_trace {step : β → α → Except ε β} (P : β → Prop) {l : List α} {b b' : β}
    (hstep : ∀ a b b', P b → step b a = .ok b' → P b') (h : l.foldlM step b = .ok b')
    (hb : P b) {m : β} {a : α} (hmem : (m, a) ∈ foldTrace step b l) :
    P m ∧ ∃ m', step m a = .ok m' := by
  induction l generalizing b with
  | nil => cases hmem
  | cons x l ih =>
    rw [List.foldlM_cons, bind_eq_ok] at h
    obtain ⟨c, hc, hrest⟩ := h
    rw [foldTrace, hc] at hmem
    rcases List.mem_cons.1 hmem with heq | hmem
    · cases heq
      exact ⟨hb, c, hc⟩
    · exact ih hrest (hstep x b c hb hc) hmem

theorem length_mapM {f : α → Except ε β} {l : List α} {l' : List β}
    (h : l.mapM f = .ok l') : l'.length = l.length := by
  induction l generalizing l' with
  | nil =>
    rw [List.mapM_nil, pure_eq_ok] at h
    subst h
    rfl
  | cons a l ih =>
    simp only [List.mapM_cons, bind_eq_ok, pure_eq_ok] at h
    obtain ⟨b, -, rest, hrest, rfl⟩ := h
    simp [ih hrest]

/-! ## Errors that are not thrown -/

/-- `x` does not throw `e`. -/
def Spares (e : ε) (x : Except ε α) : Prop := x ≠ .error e

section Spares

variable {e e' : ε}

@[simp] theorem spares_ok (a : α) : Spares e (.ok a) := nofun

@[simp] theorem spares_pure (a : α) : Spares e (pure a : Except ε α) := nofun

@[simp] theorem spares_error : Spares e (.error e' : Except ε α) ↔ e' ≠ e := by
  simp [Spares]

@[simp] theorem spares_require {c : Prop} [Decidable c] :
    Spares e (require c e') ↔ c ∨ e' ≠ e := by
  unfold require
  split <;> simp_all

@[simp] theorem spares_expect {o : Option α} : Spares e (expect o e') ↔ o.isSome ∨ e' ≠ e := by
  cases o <;> simp [expect]

@[simp] theorem spares_bind {x : Except ε α} {f : α → Except ε β} :
    Spares e (x >>= f) ↔ Spares e x ∧ ∀ a, x = .ok a → Spares e (f a) := by
  cases x <;> simp [bind, Except.bind]

@[simp] theorem spares_map {x : Except ε α} {f : α → β} : Spares e (f <$> x) ↔ Spares e x := by
  cases x <;> simp [Functor.map, Except.map]

@[simp] theorem spares_ite {c : Prop} [Decidable c] {x y : Except ε α} :
    Spares e (if c then x else y) ↔ (c → Spares e x) ∧ (¬ c → Spares e y) := by
  split <;> simp_all

theorem spares_foldlM {step : β → α → Except ε β} (h : ∀ b a, Spares e (step b a)) (l : List α)
    (b : β) : Spares e (l.foldlM step b) := by
  induction l generalizing b with
  | nil => simp
  | cons a l ih => simp [List.foldlM_cons, h, ih]

theorem spares_mapM {f : α → Except ε β} (h : ∀ a, Spares e (f a)) (l : List α) :
    Spares e (l.mapM f) := by
  induction l with
  | nil => simp
  | cons a l ih => simp [List.mapM_cons, h, ih]

end Spares

/-! ## The first that is found -/

/-- `f` gives `b` for an element of the list, and nothing for those before it. -/
def First (f : α → Except ε (Option β)) (l : List α) (b : β) : Prop :=
  ∃ pre x post, l = pre ++ x :: post ∧ f x = .ok (some b) ∧ ∀ y ∈ pre, f y = .ok none

theorem findSomeM?_eq_some {f : α → Except ε (Option β)} {l : List α} {b : β} :
    l.findSomeM? f = .ok (some b) ↔ First f l b := by
  induction l with
  | nil =>
    refine iff_of_false (fun h => by cases h) ?_
    rintro ⟨pre, x, post, h, -⟩
    simp at h
  | cons a l ih =>
    simp only [List.findSomeM?, bind_eq_ok]
    constructor
    · rintro ⟨o, ha, h⟩
      cases o with
      | some b' =>
        cases h
        exact ⟨[], a, l, rfl, ha, by simp⟩
      | none =>
        obtain ⟨pre, x, post, rfl, hx, hpre⟩ := ih.1 h
        refine ⟨a :: pre, x, post, rfl, hx, fun y hy => ?_⟩
        rcases List.mem_cons.1 hy with rfl | hy
        · exact ha
        · exact hpre y hy
    · rintro ⟨pre, x, post, h, hx, hpre⟩
      cases pre with
      | nil =>
        cases h
        exact ⟨some b, hx, rfl⟩
      | cons a' pre =>
        cases h
        exact ⟨none, hpre a List.mem_cons_self,
          ih.2 ⟨pre, x, post, rfl, hx, fun y hy => hpre y (List.mem_cons_of_mem _ hy)⟩⟩

theorem findSomeM?_eq_none {f : α → Except ε (Option β)} {l : List α} :
    l.findSomeM? f = .ok none ↔ ∀ x ∈ l, f x = .ok none := by
  induction l with
  | nil => exact iff_of_true rfl (by simp)
  | cons a l ih =>
    simp only [List.findSomeM?, bind_eq_ok, List.forall_mem_cons]
    constructor
    · rintro ⟨o, ha, h⟩
      cases o with
      | some b => cases h
      | none => exact ⟨ha, ih.1 h⟩
    · rintro ⟨ha, h⟩
      exact ⟨none, ha, ih.2 h⟩

theorem First.unique {f : α → Except ε (Option β)} {l : List α} {b b' : β} (h : First f l b)
    (h' : First f l b') : b = b' := by
  rw [← findSomeM?_eq_some] at h h'
  rw [h] at h'
  exact Option.some.inj (Except.ok.inj h')

end BitShares
