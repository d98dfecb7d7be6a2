import Mathlib.Data.List.TakeDrop
import TagFlow.Proofs.Outcome
import TagFlow.Scenario.Reference

/-! # How references are written

The reader of references against their grammar. A text has at most one reading: the forms differ
in how they begin, and a number begins with a sign or a digit.
-/

namespace TagFlow

namespace Reference

/-- Decimal digits, at least one, and what they stand for. -/
structure Digits (cs : List Char) (n : Nat) : Prop where
  nonempty : cs ≠ []
  decimal : ∀ c, c ∈ cs → c.isDigit = true
  value : Nat.ofDigitChars 10 cs 0 = n

inductive Numeral : List Char → Int → Prop
  | unsigned {cs : List Char} {n : Nat} (h : Digits cs n) : Numeral cs n
  | positive {cs : List Char} {n : Nat} (h : Digits cs n) : Numeral ('+' :: cs) n
  | negative {cs : List Char} {n : Nat} (h : Digits cs n) : Numeral ('-' :: cs) (-n)

/-- The text stands for the reference. A number has to fit into 64 bits. -/
inductive Written : String → Reference → Prop
  | any : Written "any" .any
  | result {name : String} : Written ("%" ++ name) (.result ("%" ++ name))
  | stored {name : String} : Written ("store:" ++ name) (.stored name)
  | own {input : String} (plain : '.' ∉ input.toList) :
      Written ("arg:" ++ input) (.argument none input)
  | foreign {owner input : String} (plain : '.' ∉ owner.toList) :
      Written ("arg:" ++ owner ++ "." ++ input) (.argument (some owner) input)
  | constant {text : String} {number : Int64} (h : Numeral text.toList number.toInt) :
      Written text (.constant number)

/-! ## Numbers -/

theorem natural?_eq_some_iff {cs : List Char} {n : Nat} : natural? cs = some n ↔ Digits cs n := by
  unfold natural?
  split
  case isTrue h =>
    simp only [Bool.or_eq_true, List.isEmpty_iff, Bool.not_eq_true', List.all_eq_false] at h
    refine ⟨by simp, fun digits => ?_⟩
    rcases h with h | ⟨c, hc, h⟩
    · exact (digits.nonempty h).elim
    · exact (h (digits.decimal c hc)).elim
  case isFalse h =>
    simp only [Bool.not_eq_true, Bool.or_eq_false_iff, List.isEmpty_eq_false_iff,
      Bool.not_eq_false', List.all_eq_true] at h
    rw [Option.some.injEq]
    exact ⟨fun value => ⟨h.1, h.2, value⟩, fun digits => digits.value⟩

theorem Digits.not_sign {c : Char} {cs : List Char} {n : Nat} (h : Digits (c :: cs) n) :
    c ≠ '+' ∧ c ≠ '-' := by
  have digit := h.decimal c List.mem_cons_self
  constructor <;> rintro rfl <;> exact absurd digit (by decide)

/-- Digits are read as a number that fits, given how numbers that fit are known by their value. -/
theorem bounded_eq_some_iff {cs : List Char} {fits : Nat → Prop} [DecidablePred fits]
    {wrap : Nat → Int64} {value : Nat → Int} {number : Int64}
    (exact : ∀ n, fits n ∧ wrap n = number ↔ number.toInt = value n) :
    (do let n ← natural? cs; if fits n then return wrap n else failure) = some number ↔
      ∃ n, Digits cs n ∧ number.toInt = value n := by
  simp only [Option.bind_eq_bind, Option.bind_eq_some_iff, natural?_eq_some_iff]
  refine exists_congr fun n => and_congr_right fun _ => ?_
  rw [← exact]
  by_cases h : fits n
  · simp [h]
  · simp [h]

theorem natural_fits {number : Int64} (n : Nat) :
    n < Nat.pow 2 63 ∧ .ofNat n = number ↔ number.toInt = n := by
  constructor
  · rintro ⟨h, rfl⟩
    exact Int64.toInt_ofNat_of_lt h
  · intro e
    have below := number.toInt_lt
    refine ⟨by simp only [Nat.pow_eq]; omega, ?_⟩
    rw [← Int64.ofInt_eq_ofNat, ← e, Int64.ofInt_toInt]

theorem negated_fits {number : Int64} (n : Nat) :
    n ≤ Nat.pow 2 63 ∧ .ofInt (-n) = number ↔ number.toInt = -n := by
  constructor
  · rintro ⟨h, rfl⟩
    simp only [Nat.pow_eq] at h
    exact Int64.toInt_ofInt_of_le (by omega) (by omega)
  · intro e
    have above := number.le_toInt
    refine ⟨by simp only [Nat.pow_eq]; omega, ?_⟩
    rw [← e, Int64.ofInt_toInt]

theorem integer?_eq_some_iff {cs : List Char} {number : Int64} :
    integer? cs = some number ↔ Numeral cs number.toInt := by
  constructor
  · intro h
    unfold integer? at h
    split at h
    case h_1 =>
      obtain ⟨n, digits, e⟩ := (bounded_eq_some_iff negated_fits).mp h
      exact e ▸ .negative digits
    case h_2 =>
      obtain ⟨n, digits, e⟩ := (bounded_eq_some_iff natural_fits).mp h
      exact e ▸ .positive digits
    case h_3 =>
      obtain ⟨n, digits, e⟩ := (bounded_eq_some_iff natural_fits).mp h
      exact e ▸ .unsigned digits
  · intro h
    generalize e : number.toInt = z at h
    cases h with
    | unsigned digits =>
        unfold integer?
        split
        case h_1 => exact (digits.not_sign.2 rfl).elim
        case h_2 => exact (digits.not_sign.1 rfl).elim
        case h_3 => exact (bounded_eq_some_iff natural_fits).mpr ⟨_, digits, e⟩
    | positive digits => exact (bounded_eq_some_iff natural_fits).mpr ⟨_, digits, e⟩
    | negative digits => exact (bounded_eq_some_iff negated_fits).mpr ⟨_, digits, e⟩

/-! ## Arguments -/

theorem ofArgument_of_plain {input : List Char} (plain : '.' ∉ input) :
    ofArgument input = .argument none (.ofList input) := by
  have none : input.dropWhile (· ≠ '.') = [] := by
    have all : ∀ c, c ∈ input → decide (c ≠ '.') = true := fun c hc => by
      simpa using fun e : c = '.' => plain (e ▸ hc)
    simpa using @List.dropWhile_append_of_pos _ _ input [] all
  rw [ofArgument, none]

theorem ofArgument_of_owned {owner input : List Char} (plain : '.' ∉ owner) :
    ofArgument (owner ++ '.' :: input) = .argument (some (.ofList owner)) (.ofList input) := by
  have all : ∀ c, c ∈ owner → decide (c ≠ '.') = true := fun c hc => by
    simpa using fun e : c = '.' => plain (e ▸ hc)
  unfold ofArgument
  rw [List.dropWhile_append_of_pos all, List.takeWhile_append_of_pos all]
  simp

theorem ofArgument_written (cs : List Char) :
    Written ("arg:" ++ .ofList cs) (ofArgument cs) := by
  by_cases plain : '.' ∈ cs
  · obtain ⟨owner, input, rfl, first⟩ := List.eq_append_cons_of_mem plain
    rw [ofArgument_of_owned first]
    have h := @Written.foreign (.ofList owner) (.ofList input) (by simpa using first)
    have e : "arg:" ++ String.ofList (owner ++ '.' :: input) =
        "arg:" ++ .ofList owner ++ "." ++ .ofList input := by
      rw [← String.toList_inj]
      simp
    exact e ▸ h
  · rw [ofArgument_of_plain plain]
    exact .own (by simpa using plain)

/-! ## References -/

theorem written_of_parse? {text : String} {r : Reference} (h : parse? text = some r) :
    Written text r := by
  have form : ∀ {front : String} {rest : List Char},
      dropFront? front.toList text.toList = some rest → text = front ++ .ofList rest := by
    intro front rest hdrop
    rw [← String.toList_inj, dropFront?_eq_some_iff.mp hdrop]
    simp
  simp only [parse?] at h
  split at h
  case isTrue e =>
    cases h
    exact e ▸ .any
  case isFalse =>
    split at h
    case isTrue hhead =>
      obtain ⟨rest, hrest⟩ := List.head?_eq_some_iff.mp hhead
      cases h
      have e : text = "%" ++ .ofList rest := form (dropFront?_eq_some_iff.mpr hrest)
      exact e ▸ .result
    case isFalse =>
      split at h
      case h_1 name hdrop =>
        cases h
        have e := form hdrop
        exact e ▸ .stored
      case h_2 rest _ hdrop =>
        cases h
        have e := form hdrop
        exact e ▸ ofArgument_written rest
      case h_3 =>
        obtain ⟨number, hnumber, rfl⟩ := Option.map_eq_some_iff.mp h
        exact .constant (integer?_eq_some_iff.mp hnumber)

theorem parse?_argument (cs : List Char) :
    parse? ("arg:" ++ .ofList cs) = some (ofArgument cs) := by
  have h : "arg:" ++ .ofList cs ≠ "any" := fun e => by simpa using congrArg String.toList e
  simp [parse?, h, dropFront?]

theorem Numeral.begins {cs : List Char} {z : Int} (h : Numeral cs z) :
    ∃ c rest, cs = c :: rest ∧ (c.isDigit = true ∨ c = '+' ∨ c = '-') := by
  cases h with
  | unsigned digits =>
      obtain ⟨c, rest, rfl⟩ := List.exists_cons_of_ne_nil digits.nonempty
      exact ⟨c, rest, rfl, .inl (digits.decimal c List.mem_cons_self)⟩
  | @positive rest _ digits => exact ⟨'+', rest, rfl, .inr (.inl rfl)⟩
  | @negative rest _ digits => exact ⟨'-', rest, rfl, .inr (.inr rfl)⟩

theorem Written.parse? {text : String} {r : Reference} (h : Written text r) :
    parse? text = some r := by
  cases h with
  | any => rfl
  | @result name =>
      have h : "%" ++ name ≠ "any" := fun e => by simpa using congrArg String.toList e
      simp [Reference.parse?, h]
  | @stored name =>
      have h : "store:" ++ name ≠ "any" := fun e => by simpa using congrArg String.toList e
      simp [Reference.parse?, h, dropFront?]
  | @own input plain =>
      have h := parse?_argument input.toList
      rw [String.ofList_toList, ofArgument_of_plain plain, String.ofList_toList] at h
      exact h
  | @foreign owner input plain =>
      have e : "arg:" ++ owner ++ "." ++ input =
          "arg:" ++ .ofList (owner.toList ++ '.' :: input.toList) := by
        rw [← String.toList_inj]
        simp
      rw [e, parse?_argument, ofArgument_of_owned plain, String.ofList_toList,
        String.ofList_toList]
  | constant numeral =>
      obtain ⟨c, rest, hcs, hc⟩ := numeral.begins
      have apart : c ≠ 'a' ∧ c ≠ '%' ∧ c ≠ 's' := by
        refine ⟨?_, ?_, ?_⟩ <;> rintro rfl <;> exact absurd hc (by decide)
      have h : text ≠ "any" := by
        rintro rfl
        exact apart.1 (by simpa using (congrArg List.head? hcs).symm)
      have hread := integer?_eq_some_iff.mpr numeral
      rw [hcs] at hread
      simp [Reference.parse?, h, hcs, dropFront?, apart.2.1, apart.1.symm, apart.2.2.symm, hread]

theorem parse?_eq_some_iff {text : String} {r : Reference} :
    parse? text = some r ↔ Written text r :=
  ⟨written_of_parse?, Written.parse?⟩

end Reference

end TagFlow
