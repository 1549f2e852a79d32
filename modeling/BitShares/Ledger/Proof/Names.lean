import Mathlib
import BitShares.Ledger.Proof.Control

/-!
# The grammar of account names

`is_valid_account_name` looks at the first label and at the whole of a name, and goes on with what
follows the first dot.

* `accountName`: the names of the grammar, labels separated by dots.
* `isValidAccountName_iff`: the names that are accepted.
-/

namespace BitShares

open scoped Computability

/-! ## The grammar -/

def oneChar (p : Char → Bool) : Language Char := {w | ∃ c, p c = true ∧ w = [c]}

def isLowerOrDigit (c : Char) : Bool := c.isLower || c.isDigit

/-- `[a-z]([a-z0-9-]*[a-z0-9])?`. -/
def nameLabel : Language Char :=
  oneChar Char.isLower *
    (1 + (oneChar fun c => isLowerOrDigit c || c = '-')∗ * oneChar isLowerOrDigit)

def accountName : Language Char := nameLabel * (oneChar (· = '.') * nameLabel)∗

theorem mem_kstar_oneChar {p : Char → Bool} {w : List Char} :
    w ∈ (oneChar p)∗ ↔ ∀ c ∈ w, p c = true := by
  rw [Language.mem_kstar]
  constructor
  · rintro ⟨L, rfl, hL⟩ c hc
    obtain ⟨y, hy, hcy⟩ := List.mem_flatten.1 hc
    obtain ⟨d, hd, rfl⟩ := hL y hy
    rwa [List.mem_singleton.1 hcy]
  · intro h
    refine ⟨w.map fun c => [c], (List.flatMap_singleton' w).symm, fun y hy => ?_⟩
    obtain ⟨c, hc, rfl⟩ := List.mem_map.1 hy
    exact ⟨c, h c hc, rfl⟩

theorem mem_nameLabel {w : List Char} :
    w ∈ nameLabel ↔ w.head?.any Char.isLower = true ∧ w.getLast?.any isLowerOrDigit = true ∧
      ∀ c ∈ w, (isLowerOrDigit c || c = '-') = true := by
  constructor
  · rintro ⟨-, ⟨c, hc, rfl⟩, rest, hrest, rfl⟩
    have hfirst : isLowerOrDigit c = true := by simp [isLowerOrDigit, hc]
    rcases hrest with rfl | ⟨mid, hmid, -, ⟨last, hlast, rfl⟩, rfl⟩
    · simp [hc, hfirst]
    · have hend : ([c] ++ (mid ++ [last])).getLast? = some last := by
        rw [← List.append_assoc, List.getLast?_concat]
      refine ⟨by simpa using hc, by rw [hend]; exact hlast, fun d hd => ?_⟩
      simp only [List.cons_append, List.nil_append, List.mem_cons, List.mem_append,
        List.not_mem_nil, or_false] at hd
      rcases hd with rfl | hd | rfl
      · simp [hfirst]
      · exact mem_kstar_oneChar.1 hmid d hd
      · simp [hlast]
  · rintro ⟨hhead, hlast, hall⟩
    cases w with
    | nil => cases hhead
    | cons c rest =>
      refine ⟨[c], ⟨c, by simpa using hhead, rfl⟩, rest, ?_, rfl⟩
      rcases List.eq_nil_or_concat rest with rfl | ⟨mid, last, rfl⟩
      · exact .inl rfl
      · rw [List.concat_eq_append] at hlast hall ⊢
        refine .inr ⟨mid, mem_kstar_oneChar.2 fun d hd => hall d (by simp [hd]), [last],
          ⟨last, ?_, rfl⟩, rfl⟩
        simpa [List.getLast?_cons] using hlast

theorem no_dot_of_label {w : List Char} (h : w ∈ nameLabel) : ∀ c ∈ w, c ≠ '.' := by
  rintro c hc rfl
  exact absurd ((mem_nameLabel.1 h).2.2 '.' hc) (by decide)

theorem mem_accountName {w : List Char} :
    w ∈ accountName ↔ w ∈ nameLabel ∨
      ∃ label ∈ nameLabel, ∃ above ∈ accountName, w = label ++ '.' :: above := by
  have hunfold : accountName = nameLabel + nameLabel * (oneChar (· = '.') * accountName) := by
    calc accountName
        = nameLabel * (1 + oneChar (· = '.') * nameLabel * (oneChar (· = '.') * nameLabel)∗) := by
          rw [Language.one_add_self_mul_kstar_eq_kstar]
          rfl
      _ = nameLabel + nameLabel * (oneChar (· = '.') * accountName) := by
          rw [mul_add, mul_one, accountName, mul_assoc]
  nth_rewrite 1 [hunfold]
  rw [Language.mem_add]
  refine or_congr_right ⟨?_, ?_⟩
  · rintro ⟨label, hlabel, -, ⟨-, ⟨c, hc, rfl⟩, above, habove, rfl⟩, rfl⟩
    exact ⟨label, hlabel, above, habove, by simpa using hc⟩
  · rintro ⟨label, hlabel, above, habove, rfl⟩
    exact ⟨label, hlabel, '.' :: above, ⟨['.'], ⟨'.', rfl, rfl⟩, above, habove, rfl⟩, rfl⟩

/-! ## The recogniser -/

theorem isLower_iff {c : Char} : c.isLower = true ↔ 97 ≤ c.toNat ∧ c.toNat ≤ 122 := by
  simp [Char.isLower, UInt32.le_iff_toNat_le, ← Char.toNat_val]

theorem isUpper_iff {c : Char} : c.isUpper = true ↔ 65 ≤ c.toNat ∧ c.toNat ≤ 90 := by
  simp [Char.isUpper, UInt32.le_iff_toNat_le, ← Char.toNat_val]

theorem isDigit_iff {c : Char} : c.isDigit = true ↔ 48 ≤ c.toNat ∧ c.toNat ≤ 57 := by
  simp [Char.isDigit, UInt32.le_iff_toNat_le, ← Char.toNat_val]

theorem nameEnd_iff {c : Char} : nameEnd c = true ↔ isLowerOrDigit c = true := by
  have hupper : c.isUpper = false ↔ ¬ (65 ≤ c.toNat ∧ c.toNat ≤ 90) := by
    rw [← isUpper_iff, Bool.not_eq_true]
  simp only [nameEnd, isLowerOrDigit, Char.isAlphanum, Char.isAlpha, Bool.and_eq_true,
    Bool.or_eq_true, Bool.not_eq_true', isLower_iff, isUpper_iff, isDigit_iff, hupper]
  omega

theorem isLower_of_isAlpha {c : Char} (halpha : c.isAlpha = true)
    (hc : (isLowerOrDigit c || c = '-') = true) : c.isLower = true := by
  simp only [Char.isAlpha, isLowerOrDigit, Bool.or_eq_true, decide_eq_true_eq, isLower_iff,
    isUpper_iff, isDigit_iff] at halpha hc ⊢
  rcases hc with hc | rfl
  · omega
  · exact absurd halpha (by decide)

theorem first_dot {label : List Char} (h : '.' ∉ label) (above : List Char) :
    (label ++ '.' :: above).takeWhile (· ≠ '.') = label ∧
      parentName (label ++ '.' :: above) = some above := by
  induction label with
  | nil => exact ⟨by simp, by simp [parentName]⟩
  | cons c rest ih =>
    obtain ⟨hc, hrest⟩ := not_or.1 (List.mem_cons.not.1 h)
    obtain ⟨htake, hparent⟩ := ih hrest
    rw [List.cons_append, parentName, if_neg (Ne.symm hc),
      List.takeWhile_cons_of_pos (by simpa using Ne.symm hc), htake, hparent]
    exact ⟨rfl, rfl⟩

theorem no_dot {name : List Char} (h : '.' ∉ name) :
    name.takeWhile (· ≠ '.') = name ∧ parentName name = none := by
  induction name with
  | nil => exact ⟨rfl, rfl⟩
  | cons c rest ih =>
    obtain ⟨hc, hrest⟩ := not_or.1 (List.mem_cons.not.1 h)
    obtain ⟨htake, hparent⟩ := ih hrest
    rw [parentName, if_neg (Ne.symm hc), List.takeWhile_cons_of_pos (by simpa using Ne.symm hc),
      htake, hparent]
    exact ⟨rfl, rfl⟩

theorem checked_label_iff {label : List Char} :
    (label.head?.any Char.isAlpha = true ∧ label.getLast?.any nameEnd = true ∧
      (label.all fun c => nameEnd c || c = '-') = true) ↔ label ∈ nameLabel := by
  have hchar : ∀ c : Char, (nameEnd c || decide (c = '-')) = (isLowerOrDigit c || decide (c = '-')) := by
    intro c
    rw [Bool.eq_iff_iff.2 nameEnd_iff]
  rw [mem_nameLabel, List.all_eq_true]
  simp only [hchar]
  have hlast : label.getLast?.any nameEnd = label.getLast?.any isLowerOrDigit := by
    congr 1
    funext c
    exact Bool.eq_iff_iff.2 nameEnd_iff
  rw [hlast]
  refine and_congr_left fun ⟨_, hall⟩ => ?_
  cases label with
  | nil => rfl
  | cons c rest =>
    refine ⟨fun h => ?_, fun h => ?_⟩
    · exact isLower_of_isAlpha (by simpa using h) (hall c List.mem_cons_self)
    · simp only [List.head?_cons, Option.any_some] at h ⊢
      simp [Char.isAlpha, h]

theorem validAccountName_succ {fuel : Nat} {name : List Char} :
    validAccountName (fuel + 1) name = true ↔
      (MIN_NAME_SIZE ≤ name.length ∧ name.length ≤ MAX_NAME_SIZE) ∧
      name.head?.any Char.isAlpha = true ∧ name.getLast?.any nameEnd = true ∧
      (name.takeWhile (· ≠ '.')).getLast?.any nameEnd = true ∧
      ((name.takeWhile (· ≠ '.')).all fun c => nameEnd c || c = '-') = true ∧
      ∀ above, parentName name = some above → above ≠ [] → validAccountName fuel above = true := by
  rw [validAccountName]
  split_ifs with hsize hhead hlast hsub hall
  · simp only [Bool.or_eq_true, decide_eq_true_eq] at hsize
    simp only [false_iff]
    rintro ⟨⟨hmin, hmax⟩, -⟩
    omega
  · simp_all
  · simp_all
  · simp_all
  · simp_all
  · simp only [Bool.or_eq_true, decide_eq_true_eq, not_or, Nat.not_lt] at hsize
    simp only [Bool.not_eq_true', Bool.not_eq_false] at hhead hlast hsub hall
    simp only [hsize, hhead, hlast, hsub, hall, and_self, true_and]
    cases parentName name with
    | none => simp
    | some above => cases above <;> simp

theorem ne_nil_of_accountName {w : List Char} (h : w ∈ accountName) : w ≠ [] := by
  rintro rfl
  rcases mem_accountName.1 h with hlabel | ⟨label, -, above, -, heq⟩
  · cases (mem_nameLabel.1 hlabel).1
  · exact absurd heq (by simp)

theorem last_of_accountName {w : List Char} (h : w ∈ accountName) :
    w.getLast?.any nameEnd = true := by
  induction hn : w.length using Nat.strong_induction_on generalizing w with
  | _ n ih =>
    rcases mem_accountName.1 h with hlabel | ⟨label, -, above, habove, rfl⟩
    · exact (checked_label_iff.2 hlabel).2.1
    · have hlast := ih above.length (by simp at hn; omega) habove rfl
      have hne := ne_nil_of_accountName habove
      rw [List.getLast?_append_of_ne_nil _ (by simp), List.getLast?_cons_of_ne_nil hne]
      exact hlast

theorem validAccountName_iff {fuel : Nat} {name : List Char} (h : name.length < fuel) :
    validAccountName fuel name = true ↔
      (MIN_NAME_SIZE ≤ name.length ∧ name.length ≤ MAX_NAME_SIZE) ∧ name ∈ accountName := by
  induction fuel generalizing name with
  | zero => omega
  | succ fuel ih =>
    rw [validAccountName_succ]
    refine and_congr_right fun ⟨_, hmax⟩ => ?_
    by_cases hdot : '.' ∈ name
    case neg =>
      -- one label
      obtain ⟨htake, hnone⟩ := no_dot hdot
      rw [htake, hnone, mem_accountName, or_iff_left, ← checked_label_iff]
      · constructor
        · rintro ⟨hhead, hlast, -, hall, -⟩
          exact ⟨hhead, hlast, hall⟩
        · rintro ⟨hhead, hlast, hall⟩
          exact ⟨hhead, hlast, hlast, hall, fun _ h => (by cases h)⟩
      · rintro ⟨label, -, above, -, rfl⟩
        exact hdot (by simp)
    case pos =>
      -- a label and a name
      obtain ⟨label, above, rfl, hno⟩ := List.eq_append_cons_of_mem hdot
      obtain ⟨htake, hsome⟩ := first_dot hno above
      rw [List.length_append, List.length_cons] at h hmax
      rw [htake, hsome]
      have hhead : (label ++ '.' :: above).head?.any Char.isAlpha = label.head?.any Char.isAlpha := by
        cases label with
        | nil =>
          change Char.isAlpha '.' = false
          decide
        | cons c rest => rfl
      rw [hhead]
      constructor
      · rintro ⟨hhead, hlast, hsub, hall, habove⟩
        have hne : above ≠ [] := by
          rintro rfl
          rw [List.getLast?_concat] at hlast
          exact absurd hlast (by decide)
        obtain ⟨-, hgrammar⟩ := (ih (by omega)).1 (habove above rfl hne)
        exact mem_accountName.2
          (.inr ⟨label, checked_label_iff.1 ⟨hhead, hsub, hall⟩, above, hgrammar, rfl⟩)
      · intro hgrammar
        have hlast := last_of_accountName hgrammar
        -- the first dot is the one after the first label
        obtain ⟨hlabel, habove⟩ : label ∈ nameLabel ∧ above ∈ accountName := by
          rcases mem_accountName.1 hgrammar with hlabel | ⟨label', hlabel, above', habove, heq⟩
          · exact absurd rfl (no_dot_of_label hlabel '.' (by simp))
          · have hno' : '.' ∉ label' := fun hmem => no_dot_of_label hlabel '.' hmem rfl
            obtain ⟨htake', hsome'⟩ := first_dot hno' above'
            rw [heq, htake'] at htake
            rw [heq, hsome'] at hsome
            rw [← htake, ← Option.some.inj hsome]
            exact ⟨hlabel, habove⟩
        obtain ⟨hhead, hsub, hall⟩ := checked_label_iff.2 hlabel
        refine ⟨hhead, hlast, hsub, hall, fun a ha hne => ?_⟩
        obtain rfl := Option.some.inj ha
        exact (ih (by omega)).2 ⟨⟨List.length_pos_iff.2 hne, by omega⟩, habove⟩

/-! ## The ancestors -/

theorem length_parentName {name above : List Char} (h : parentName name = some above) :
    above.length < name.length := by
  obtain ⟨sub, rfl⟩ := EvalState.parentName_eq_some h
  rw [List.length_append, List.length_cons]
  omega

theorem parentName_ends (name : List Char) :
    ∃ n, (fun o : Option (List Char) => o.bind parentName)^[n] (some name) = none := by
  induction hn : name.length using Nat.strong_induction_on generalizing name with
  | _ n ih =>
    cases hparent : parentName name with
    | none => exact ⟨1, hparent⟩
    | some above =>
      obtain ⟨m, hm⟩ := ih above.length (hn ▸ length_parentName hparent) above rfl
      refine ⟨m + 1, ?_⟩
      rw [Function.iterate_succ_apply, Option.bind_some, hparent]
      exact hm

theorem parentName_accountName {name above : List Char} (h : name ∈ accountName)
    (hparent : parentName name = some above) : above ∈ accountName := by
  rcases mem_accountName.1 h with hlabel | ⟨label, hlabel, above', habove, rfl⟩
  · rw [(no_dot fun hmem => no_dot_of_label hlabel '.' hmem rfl).2] at hparent
    cases hparent
  · rw [(first_dot (fun hmem => no_dot_of_label hlabel '.' hmem rfl) above').2] at hparent
    rwa [← Option.some.inj hparent]

theorem isValidAccountName_ofList_iff (name : List Char) :
    isValidAccountName (String.ofList name) = true ↔
      (MIN_NAME_SIZE ≤ name.length ∧ name.length ≤ MAX_NAME_SIZE) ∧ name ∈ accountName := by
  unfold isValidAccountName
  rw [String.toList_ofList, String.length_ofList]
  exact validAccountName_iff (Nat.lt_succ_self _)

/-- **`is_valid_account_name`** accepts the names of the grammar that are not too long.  The
ancestors of an accepted name are accepted, and there are finitely many. -/
theorem isValidAccountName_iff (name : String) :
    (isValidAccountName name = true ↔
      (MIN_NAME_SIZE ≤ name.length ∧ name.length ≤ MAX_NAME_SIZE) ∧ name.toList ∈ accountName) ∧
    (isValidAccountName name = true → ∀ above,
      Relation.TransGen (fun a b => parentName a = some b) name.toList above →
        isValidAccountName (String.ofList above) = true) ∧
    ∃ n, (fun o : Option (List Char) => o.bind parentName)^[n] (some name.toList) = none := by
  have hname := isValidAccountName_ofList_iff name.toList
  rw [String.ofList_toList, String.length_toList] at hname
  refine ⟨hname, fun hvalid above hup => ?_, parentName_ends _⟩
  have hstep : ∀ a b : List Char, parentName a = some b →
      isValidAccountName (String.ofList a) = true → isValidAccountName (String.ofList b) = true := by
    intro a b hparent ha
    rw [isValidAccountName_ofList_iff] at ha ⊢
    have hgrammar := parentName_accountName ha.2 hparent
    have hshort := length_parentName hparent
    exact ⟨⟨List.length_pos_iff.2 (ne_nil_of_accountName hgrammar), by omega⟩, hgrammar⟩
  have hstart : isValidAccountName (String.ofList name.toList) = true := by
    rwa [String.ofList_toList]
  induction hup with
  | single hparent => exact hstep _ _ hparent hstart
  | tail _ hparent ih => exact hstep _ _ hparent ih

theorem isValidAccountName_parent :
    isValidAccountName "sub.name" = true ∧ isValidAccountName "name" = true :=
  ⟨by decide, (isValidAccountName_iff "sub.name").2.1 (by decide) "name".toList
    (.single (by decide))⟩

end BitShares
