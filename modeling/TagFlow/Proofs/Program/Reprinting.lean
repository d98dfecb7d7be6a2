import TagFlow.Program.Listing
import TagFlow.Proofs.Program.NameTables

/-! # Listings through one name table

Writing a listing changes the name table, yet the text is settled by the table that comes of
it: written again, with that table or any later one, the listing is the same and asks for nothing
new. In all that is written through one table, two values share a name only if they are equal.
-/

namespace TagFlow

namespace Names

variable {α β : Type}

/-- The computation only asks a table about things, and done again, on the table that came of it
or on any later one, it has the same result and asks for nothing new. -/
structure Stable (f : Names → α × Names) : Prop where
  asks : ∀ names, ∃ asked, (f names).2 = names.after asked
  again : ∀ names more, f ((f names).2.after more) = ((f names).1, (f names).2.after more)

namespace Stable

theorem pure (a : α) : Stable fun names => (a, names) where
  asks _ := ⟨[], rfl⟩
  again _ _ := rfl

theorem ask (r : Request) : Stable (·.ask r) where
  asks _ := ⟨[r], rfl⟩
  again names more := names.ask_after_ask r more

theorem bind {f : Names → α × Names} {g : α → Names → β × Names} (hf : Stable f)
    (hg : ∀ a, Stable (g a)) : Stable fun names => g (f names).1 (f names).2 where
  asks names := by
    obtain ⟨first, hfirst⟩ := hf.asks names
    obtain ⟨second, hsecond⟩ := (hg (f names).1).asks (f names).2
    exact ⟨first ++ second, by rw [hsecond, hfirst, after_append]⟩
  again names more := by
    obtain ⟨second, hsecond⟩ := (hg (f names).1).asks (f names).2
    have first : f ((g (f names).1 (f names).2).2.after more) =
        ((f names).1, (g (f names).1 (f names).2).2.after more) := by
      rw [hsecond, ← after_append]
      exact hf.again names (second ++ more)
    show g (f _).1 (f _).2 = _
    rw [first]
    exact (hg (f names).1).again (f names).2 more

theorem map {f : Names → α × Names} (hf : Stable f) (g : α → β) :
    Stable fun names => (g (f names).1, (f names).2) :=
  hf.bind fun a => .pure (g a)

end Stable

end Names

open Names (Stable)

/-! ## Listings -/

theorem Value.render_stable (v : Value) : Stable (Value.render · v) := by
  cases v with
  | any => exact .pure _
  | constant number => exact .pure _
  | stored storage => exact .pure _
  | argument block index =>
      exact (Stable.ask (.value (.argument block index))).map fun n => s!"%{n}"
  | result operation index =>
      exact (Stable.ask (.value (.result operation index))).map fun n => s!"%{n}"

namespace Listing

theorem values_stable (vs : List Value) : Stable (values · vs) := by
  induction vs with
  | nil => exact .pure []
  | cons v rest ih => exact v.render_stable.bind fun text => ih.map (text :: ·)

theorem head_stable (id : OperationId) (operator : String) (attributes : Attributes)
    (inputs : List Value) : Stable (head · id operator attributes inputs) :=
  (values_stable inputs).bind fun texts =>
    (Value.default id).render_stable.map (assigned operator attributes texts)

mutual

theorem module_stable (depth : Nat) : (m : Module) → Stable (module depth · m)
  | ⟨id, blocks⟩ =>
      (Stable.ask (.module id)).bind fun first =>
        (blockList_stable (depth + 1) blocks).bind fun body =>
          (Stable.ask (.module id)).map (framed depth "module m" first body)

theorem block_stable (depth : Nat) : (b : Block) → Stable (block depth · b)
  | ⟨id, _, _, _, _, operations⟩ =>
      (Stable.ask (.block id)).bind fun first =>
        (operationList_stable (depth + 1) operations).bind fun body =>
          (Stable.ask (.block id)).map (framed depth "block b" first body)

theorem operation_stable (depth : Nat) : (o : Operation) → Stable (operation depth · o)
  | ⟨id, _, signature, attributes, inputs, none⟩ =>
      (head_stable id signature.name attributes inputs).map (line depth)
  | ⟨id, _, signature, attributes, inputs, some implementation⟩ =>
      (head_stable id signature.name attributes inputs).bind fun text =>
        (module_stable (depth + 1) implementation).map (implemented depth text)

theorem blockList_stable (depth : Nat) : (blocks : List Block) → Stable (blockList depth · blocks)
  | [] => .pure ""
  | b :: rest =>
      (block_stable depth b).bind fun text => (blockList_stable depth rest).map (text ++ ·)

theorem operationList_stable (depth : Nat) :
    (operations : List Operation) → Stable (operationList depth · operations)
  | [] => .pure ""
  | o :: rest =>
      (operation_stable depth o).bind fun text => (operationList_stable depth rest).map (text ++ ·)

end

end Listing

/-! ## Names of values -/

/-- Inputs of blocks and results of operations have numbers. -/
def Value.Numbered : Value → Prop
  | .argument .. | .result .. => True
  | .any | .constant _ | .stored _ => False

theorem Value.Numbered.render_eq {v : Value} (h : v.Numbered) (names : Names) :
    v.render names = (s!"%{(names.ask (.value v)).1}", names.after [.value v]) := by
  cases v with
  | argument block index => rfl
  | result operation index => rfl
  | any => cases h
  | constant number => cases h
  | stored storage => cases h

theorem percent_inj {n k : Nat} : s!"%{n}" = s!"%{k}" ↔ n = k := by
  refine ⟨fun h => ?_, fun h => by rw [h]⟩
  have digits := congrArg String.toList ((String.append_right_inj "%").mp h)
  rw [Nat.toString_eq_repr, Nat.toString_eq_repr, Nat.toList_repr, Nat.toList_repr] at digits
  rw [← @Nat.ofDigitChars_ten_toDigits n, digits, Nat.ofDigitChars_ten_toDigits]

/-- Through one table, whatever is asked in between, only equal values get the same name. -/
theorem Value.Numbered.render_eq_iff {v w : Value} (hv : v.Numbered) (hw : w.Numbered)
    (names : Names) (more : List Request) :
    (v.render names).1 = (w.render ((v.render names).2.after more)).1 ↔ v = w := by
  rw [hv.render_eq, hw.render_eq, percent_inj]
  let middle := (names.after [.value v]).after more
  constructor
  · intro same
    have first : (middle.ask (.value w)).2.number? (.value v) = some (names.ask (.value v)).1 :=
      Names.number?_ask_of_some (Names.number?_after (names.number?_ask (.value v)) more) _
    have second := middle.number?_ask (.value w)
    rw [same] at first
    exact Request.value.inj (Names.eq_of_number? rfl first second)
  · rintro rfl
    exact (congrArg Prod.fst (names.ask_after_ask (.value v) more)).symm

/-- Through every table that any questions lead to: a module written again has the same text, also
after more questions, and asks for nothing new; the numbers of a kind count the things of that kind
in the order of the first questions; a number is kept whatever is asked later, and answered when
it is asked for; and the names of values tell them apart, however much is asked in between. -/
theorem reprinting_stable (requests : List Request) :
    let names := Names.after {} requests
    (∀ m : Module, let (text, next) := m.render names
      m.render next = (text, next) ∧
        (∀ more, m.render (next.after more) = (text, next.after more)) ∧
        ∃ asked, next = Names.after {} (requests ++ asked)) ∧
      (∀ r n, names.number? r = some n ↔
        (requests.filter (·.kind = r.kind)).eraseDups[n]? = some r) ∧
      (∀ r n more, names.number? r = some n → (names.after more).number? r = some n) ∧
      (∀ r, ∃ n, names.ask r = (n, names.after [r]) ∧ (names.after [r]).number? r = some n) ∧
      (∀ v : Value, v.Numbered → ∃ n, v.render names = (s!"%{n}", names.after [.value v]) ∧
        (names.after [.value v]).number? (.value v) = some n) ∧
      ∀ (v w : Value) more, v.Numbered → w.Numbered →
        ((v.render names).1 = (w.render ((v.render names).2.after more)).1 ↔ v = w) := by
  intro names
  refine ⟨fun m => ?_, fun _ _ => Names.number?_after_eq_some_iff,
    fun _ _ more h => Names.number?_after h more, fun r => ⟨_, rfl, names.number?_ask r⟩,
    fun v hv => ⟨_, hv.render_eq names, names.number?_ask (.value v)⟩,
    fun _ _ more hv hw => hv.render_eq_iff hw names more⟩
  have stable := Listing.module_stable 0 m
  obtain ⟨asked, hasked⟩ := stable.asks names
  refine ⟨stable.again names [], stable.again names, asked, ?_⟩
  rw [Names.after_append]
  exact hasked

end TagFlow
