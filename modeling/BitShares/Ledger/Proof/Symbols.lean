import BitShares.Ledger.Evaluation

/-!
# Symbol names

The documentation of `is_valid_symbol_name` gives a grammar: a primary symbol, and behind a dot a
sub-symbol.  The code reads the characters once and then checks lengths, and the length of a primary
symbol in front of a dot is not among them.

* `scanSymbol_eq_ok`: what the loop over the characters accepts.
* `isValidSymbolName_iff`: what the function accepts.
* `symbolName_iff`: when that is what the documentation says.
-/

namespace BitShares

def subSymbolChar (c : Char) : Bool := c.isUpper || c.isDigit

structure Hierarchical (cs primary sub : List Char) : Prop where
  parts : cs = primary ++ '.' :: sub
  upper : primary.all Char.isUpper
  chars : sub.all subSymbolChar
  notEmpty : sub ≠ []

/-- **The documented grammar.** -/
def SymbolGrammar (cs : List Char) : Prop :=
  (cs.all Char.isUpper ∧ MIN_SYMBOL_SIZE ≤ cs.length ∧ cs.length ≤ MAX_SUB_SYMBOL_SIZE ∨
    ∃ primary sub, Hierarchical cs primary sub ∧ MIN_SYMBOL_SIZE ≤ primary.length ∧
      primary.length ≤ MAX_SUB_SYMBOL_SIZE ∧ cs.length ≤ MAX_SYMBOL_SIZE) ∧
    ¬ "BIT".toList <+: cs

/-- A name in the grammar but for the length of its primary symbol. -/
def UnevenPrimary (cs : List Char) : Prop :=
  (∃ primary sub, Hierarchical cs primary sub ∧ 1 ≤ primary.length ∧
    (primary.length < MIN_SYMBOL_SIZE ∨ MAX_SUB_SYMBOL_SIZE < primary.length) ∧
    sub.length ≤ MAX_SUB_SYMBOL_SIZE ∧ cs.length ≤ MAX_SYMBOL_SIZE) ∧ ¬ "BIT".toList <+: cs

/-! ## The loop -/

theorem scanSymbol_sub {l : List Char} {position dotPosition : Nat} {r : Nat × Nat} :
    scanSymbol l position 1 dotPosition = .ok r ↔ l.all subSymbolChar ∧ r = (1, dotPosition) := by
  induction l generalizing position with
  | nil => simp [scanSymbol, eq_comm]
  | cons c l ih =>
    rw [scanSymbol, List.all_cons]
    by_cases hdot : c = '.'
    · subst hdot
      simp [show subSymbolChar '.' = false by decide]
    · rw [if_neg hdot]
      cases hupper : c.isUpper <;> cases hdigit : c.isDigit <;>
        simp [subSymbolChar, hupper, hdigit, ih]

theorem scanSymbol_eq_ok {l : List Char} {position : Nat} {r : Nat × Nat} :
    scanSymbol l position 0 0 = .ok r ↔ (l.all Char.isUpper ∧ r = (0, 0)) ∨
      ∃ primary sub, l = primary ++ '.' :: sub ∧ primary.all Char.isUpper ∧
        sub.all subSymbolChar ∧ r = (1, position + primary.length) := by
  induction l generalizing position with
  | nil =>
    rw [scanSymbol, Except.ok.injEq]
    constructor
    · rintro rfl
      exact .inl ⟨rfl, rfl⟩
    · rintro (⟨-, rfl⟩ | ⟨primary, sub, hparts, -⟩)
      · rfl
      · exact absurd hparts.symm (by simp)
  | cons c l ih =>
    rw [scanSymbol]
    by_cases hdot : c = '.'
    · subst hdot
      rw [if_pos rfl, if_neg (by decide), scanSymbol_sub]
      constructor
      · rintro ⟨hsub, rfl⟩
        exact .inr ⟨[], l, rfl, rfl, hsub, rfl⟩
      · rintro (⟨hupper, -⟩ | ⟨primary, sub, hparts, hupper, hsub, rfl⟩)
        · simp [show Char.isUpper '.' = false by decide] at hupper
        · cases primary with
          | nil =>
            cases hparts
            exact ⟨hsub, rfl⟩
          | cons d primary =>
            cases hparts
            simp [show Char.isUpper '.' = false by decide] at hupper
    · rw [if_neg hdot]
      cases hupper : c.isUpper with
      | false =>
        simp only [decide_true, Bool.not_false, Bool.and_self, if_true, reduceCtorEq, false_iff]
        rintro (⟨hall, -⟩ | ⟨primary, sub, hparts, hall, -, -⟩)
        · simp [hupper] at hall
        · cases primary with
          | nil =>
            cases hparts
            exact hdot rfl
          | cons d primary =>
            cases hparts
            simp [hupper] at hall
      | true =>
        simp only [Bool.not_true, Bool.and_false, Bool.false_and, Bool.false_eq_true, if_false, ih]
        constructor
        · rintro (⟨hall, rfl⟩ | ⟨primary, sub, rfl, hall, hsub, rfl⟩)
          · exact .inl ⟨by simp [hupper, hall], rfl⟩
          · refine .inr ⟨c :: primary, sub, rfl, by simp [hupper, hall], hsub, ?_⟩
            rw [List.length_cons, Nat.add_right_comm, Nat.add_assoc]
        · rintro (⟨hall, rfl⟩ | ⟨primary, sub, hparts, hall, hsub, rfl⟩)
          · rw [List.all_cons, hupper, Bool.true_and] at hall
            exact .inl ⟨hall, rfl⟩
          · cases primary with
            | nil =>
              cases hparts
              exact absurd rfl hdot
            | cons d primary =>
              cases hparts
              rw [List.all_cons, hupper, Bool.true_and] at hall
              refine .inr ⟨primary, sub, rfl, hall, hsub, ?_⟩
              rw [List.length_cons, Nat.add_right_comm, Nat.add_assoc]

/-! ## The function -/

theorem isValidSymbolName_eq_ok (symbol : String) : isValidSymbolName symbol = .ok true ↔
    MIN_SYMBOL_SIZE ≤ symbol.toList.length ∧ ∃ r, scanSymbol symbol.toList 0 0 0 = .ok r ∧
      symbol.toList.getLast? ≠ some '.' ∧ symbol.toList.head? ≠ some '.' ∧
      (if r.1 = 0 then symbol.toList.length ≤ MAX_SUB_SYMBOL_SIZE
        else symbol.toList.length - r.2 - 1 ≤ MAX_SUB_SYMBOL_SIZE ∧
          symbol.toList.length ≤ MAX_SYMBOL_SIZE) ∧
      ¬ "BIT".toList <+: symbol.toList := by
  generalize hcs : symbol.toList = cs
  have hbit : cs.take 3 ≠ "BIT".toList ↔ ¬ "BIT".toList <+: cs := by
    rw [List.prefix_iff_eq_take, ne_comm]
    rfl
  simp only [isValidSymbolName, hcs, bind_eq_ok, require_eq_ok, exists_and_left, exists_const, hbit]
  refine and_congr_right fun _ => exists_congr fun r => and_congr_right fun _ => ?_
  by_cases hlast : cs.getLast? = some '.'
  · simp [pure_eq_ok, hlast]
  by_cases hhead : cs.head? = some '.'
  · simp [pure_eq_ok, hlast, hhead]
  rw [if_neg hlast, if_neg hhead]
  split_ifs
  · simp only [bind_eq_ok, require_eq_ok, pure_eq_ok, exists_and_left, exists_const, and_true]
    exact ⟨fun h => ⟨hlast, hhead, h⟩, fun h => h.2.2⟩
  · simp only [bind_eq_ok, require_eq_ok, pure_eq_ok, exists_and_left, exists_const, and_true]
    exact ⟨fun h => ⟨hlast, hhead, ⟨h.1, h.2.1⟩, h.2.2⟩, fun h => ⟨h.2.2.1.1, h.2.2.1.2, h.2.2.2⟩⟩

theorem isValidSymbolName_iff (symbol : String) : isValidSymbolName symbol = .ok true ↔
    MIN_SYMBOL_SIZE ≤ symbol.toList.length ∧
      (symbol.toList.all Char.isUpper ∧ symbol.toList.length ≤ MAX_SUB_SYMBOL_SIZE ∨
        ∃ primary sub, Hierarchical symbol.toList primary sub ∧ 1 ≤ primary.length ∧
          sub.length ≤ MAX_SUB_SYMBOL_SIZE ∧ symbol.toList.length ≤ MAX_SYMBOL_SIZE) ∧
      ¬ "BIT".toList <+: symbol.toList := by
  rw [isValidSymbolName_eq_ok]
  generalize symbol.toList = cs
  refine and_congr_right fun hmin => ?_
  have hsub : ∀ primary sub : List Char, (primary ++ '.' :: sub).length - (0 + primary.length) - 1 =
      sub.length := by
    intro primary sub
    rw [List.length_append, List.length_cons]
    omega
  constructor
  · rintro ⟨r, hscan, hlast, hhead, hsize, hbit⟩
    refine ⟨?_, hbit⟩
    obtain ⟨hupper, rfl⟩ | ⟨primary, sub, rfl, hupper, hchars, rfl⟩ := scanSymbol_eq_ok.1 hscan
    · exact .inl ⟨hupper, hsize⟩
    · rw [if_neg one_ne_zero, hsub] at hsize
      refine .inr ⟨primary, sub, ⟨rfl, hupper, hchars, ?_⟩, ?_, hsize⟩
      · rintro rfl
        simp at hlast
      · cases primary with
        | nil => exact absurd rfl hhead
        | cons c primary => exact Nat.succ_pos _
  · rintro ⟨⟨hupper, hsize⟩ | ⟨primary, sub, ⟨rfl, hupper, hchars, hne⟩, hpos, hsize⟩, hbit⟩
    · -- a name of letters neither begins nor ends with a dot
      have hdot : '.' ∉ cs := fun hmem => by
        have := List.all_eq_true.1 hupper _ hmem
        exact absurd this (by decide)
      refine ⟨(0, 0), scanSymbol_eq_ok.2 (.inl ⟨hupper, rfl⟩), fun hlast => ?_, fun hhead => ?_,
        hsize, hbit⟩
      · exact hdot (List.mem_of_getLast? hlast)
      · exact hdot (List.mem_of_head? hhead)
    · refine ⟨_, scanSymbol_eq_ok.2 (.inr ⟨primary, sub, rfl, hupper, hchars, rfl⟩), fun hlast => ?_,
        fun hhead => ?_, ?_, hbit⟩
      · rw [List.getLast?_append, List.getLast?_cons] at hlast
        have hmem : '.' ∈ sub := by
          cases hend : sub.getLast? with
          | none => exact absurd (List.getLast?_eq_none_iff.1 hend) hne
          | some c =>
            rw [hend] at hlast
            cases hlast
            exact List.mem_of_getLast? hend
        exact absurd (List.all_eq_true.1 hchars _ hmem) (by decide)
      · cases primary with
        | nil => cases hpos
        | cons c primary =>
          cases hhead
          exact absurd (List.all_eq_true.1 hupper '.' List.mem_cons_self) (by decide)
      · rw [if_neg one_ne_zero, hsub]
        exact hsize

theorem Hierarchical.unique {cs p q p' q' : List Char} (h : Hierarchical cs p q)
    (h' : Hierarchical cs p' q') : p = p' := by
  have htake : ∀ {p q : List Char}, Hierarchical cs p q → cs.takeWhile Char.isUpper = p := by
    intro p q h
    rw [h.parts, List.takeWhile_append_of_pos (List.all_eq_true.1 h.upper),
      List.takeWhile_cons_of_neg (by decide), List.append_nil]
  rw [← htake h, htake h']

/-- **Symbol names.**  The function accepts what the documentation says unless the symbol is
hierarchical and valid but for the length of its primary symbol: such a symbol is accepted. -/
theorem symbolName_iff (symbol : String) :
    (isValidSymbolName symbol = .ok true ↔ SymbolGrammar symbol.toList) ↔
      ¬ UnevenPrimary symbol.toList := by
  rw [isValidSymbolName_iff]
  generalize symbol.toList = cs
  have hlength : ∀ {p q}, Hierarchical cs p q → cs.length = p.length + 1 + q.length ∧ 1 ≤ q.length := by
    intro p q h
    refine ⟨?_, List.length_pos_iff.2 h.notEmpty⟩
    rw [h.parts, List.length_append, List.length_cons]
    omega
  constructor
  · rintro hiff ⟨⟨p, q, hpq, hpos, hodd, hsub, htotal⟩, hbit⟩
    obtain ⟨hlen, hq⟩ := hlength hpq
    have haccepted := hiff.1 ⟨by simp only [MIN_SYMBOL_SIZE]; omega,
      .inr ⟨p, q, hpq, hpos, hsub, htotal⟩, hbit⟩
    obtain ⟨⟨hupper, -⟩ | ⟨p', q', hpq', hmin, hmax, -⟩, -⟩ := haccepted
    · rw [hpq.parts, List.all_append, List.all_cons] at hupper
      simp [show Char.isUpper '.' = false by decide] at hupper
    · rw [hpq.unique hpq'] at hodd
      omega
  · intro hodd
    constructor
    · rintro ⟨hmin, ⟨hupper, hmax⟩ | ⟨p, q, hpq, hpos, hsub, htotal⟩, hbit⟩
      · exact ⟨.inl ⟨hupper, hmin, hmax⟩, hbit⟩
      · refine ⟨.inr ⟨p, q, hpq, ?_, ?_, htotal⟩, hbit⟩
        · by_contra hlt
          exact hodd ⟨⟨p, q, hpq, hpos, .inl (not_le.1 hlt), hsub, htotal⟩, hbit⟩
        · by_contra hlt
          exact hodd ⟨⟨p, q, hpq, hpos, .inr (not_le.1 hlt), hsub, htotal⟩, hbit⟩
    · rintro ⟨⟨hupper, hmin, hmax⟩ | ⟨p, q, hpq, hmin, hmax, htotal⟩, hbit⟩
      · exact ⟨hmin, .inl ⟨hupper, hmax⟩, hbit⟩
      · obtain ⟨hlen, hq⟩ := hlength hpq
        simp only [MIN_SYMBOL_SIZE, MAX_SYMBOL_SIZE, MAX_SUB_SYMBOL_SIZE] at hmin htotal ⊢
        exact ⟨by omega, .inr ⟨p, q, hpq, by omega, by omega, htotal⟩, hbit⟩

/-- A primary symbol of one letter is accepted in front of a dot. -/
theorem shortPrimary_accepted :
    isValidSymbolName "A.B" = .ok true ∧ ¬ SymbolGrammar "A.B".toList := by
  refine ⟨by decide +kernel, ?_⟩
  rintro ⟨⟨hupper, -⟩ | ⟨p, q, hpq, hmin, -⟩, -⟩
  · exact absurd hupper (by decide)
  · have hlen := congrArg List.length hpq.parts
    have hthree : "A.B".toList.length = 3 := by decide
    rw [hthree, List.length_append, List.length_cons] at hlen
    simp only [MIN_SYMBOL_SIZE] at hmin
    have := List.length_pos_iff.2 hpq.notEmpty
    omega

end BitShares
