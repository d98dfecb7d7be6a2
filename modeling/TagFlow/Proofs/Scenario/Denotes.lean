import TagFlow.Proofs.Scenario.WellFormed

/-! # What references denote

The value of a reference, said of the declarations of a scenario alone. Operations are numbered
over all blocks in the order of their declaration, blocks, storages and inputs of a block by their
positions. Where names are distinct, a reference denotes at most one value.
-/

namespace TagFlow

namespace Scenario

def operations (s : Scenario) : List OperationDecl := s.blocks.flatMap (·.operations)

/-- The value of a reference inside the block at a position, or outside of all blocks. -/
inductive Denotes (s : Scenario) (inside : Option Nat) : Reference → Value → Prop where
  | any : Denotes s inside .any .any
  | result {name : String} {rank index : Nat} {o : OperationDecl}
      (declared : s.operations[rank]? = some o) (position : o.results[index]? = some name) :
      Denotes s inside (.result name) (.result rank index)
  | stored {index : Nat} {d : StorageDecl} (declared : s.storages[index]? = some d) :
      Denotes s inside (.stored d.name) (.stored index)
  | own {block index : Nat} {b : BlockDecl} {input : String} (here : inside = some block)
      (declared : s.blocks[block]? = some b) (position : b.inputNames[index]? = some input) :
      Denotes s inside (.argument none input) (.argument block index)
  | foreign {block index : Nat} {b : BlockDecl} {input : String}
      (declared : s.blocks[block]? = some b) (position : b.inputNames[index]? = some input) :
      Denotes s inside (.argument (some b.name) input) (.argument block index)
  | constant (number : Int64) : Denotes s inside (.constant number) (.constant number)

/-- The text is a reference to the value. -/
def Refers (s : Scenario) (inside : Option Nat) (text : String) (v : Value) : Prop :=
  ∃ r, Reference.Written text r ∧ s.Denotes inside r v

/-- The value that an operation in the block at a position reads for an input. -/
inductive InputDecl.Denotes (s : Scenario) (block : Nat) : InputDecl → Value → Prop where
  | constant (number : Int64) : Denotes s block (.constant number) (.constant number)
  | reference {text : String} {v : Value} (refers : s.Refers (some block) text v) :
      Denotes s block (.reference text) v

/-! ## Positions of names -/

/-- A member of one of many lists has one place, if all members are distinct. -/
theorem place_unique {α β : Type} {l : List α} {f : α → List β} (distinct : (l.flatMap f).Nodup)
    {i i' j j' : Nat} {a a' : α} {b : β} (ha : l[i]? = some a) (hb : (f a)[j]? = some b)
    (ha' : l[i']? = some a') (hb' : (f a')[j']? = some b) : i = i' ∧ j = j' := by
  obtain ⟨each, apart⟩ := List.nodup_flatMap.mp distinct
  obtain ⟨hi, hl⟩ := List.getElem?_eq_some_iff.mp ha
  obtain ⟨hi', hl'⟩ := List.getElem?_eq_some_iff.mp ha'
  rw [List.pairwise_iff_getElem] at apart
  have inside := List.mem_of_getElem? hb
  have inside' := List.mem_of_getElem? hb'
  have same : i = i' := by
    rcases Nat.lt_trichotomy i i' with hlt | e | hlt
    · have disjoint := apart i i' hi hi' hlt
      rw [hl, hl'] at disjoint
      exact (disjoint inside inside').elim
    · exact e
    · have disjoint := apart i' i hi' hi hlt
      rw [hl, hl'] at disjoint
      exact (disjoint inside' inside).elim
  subst same
  rw [ha, Option.some.injEq] at ha'
  subst ha'
  have hlt : j < (f a).length := (List.getElem?_eq_some_iff.mp hb).1
  exact ⟨rfl, (List.getElem?_inj hlt (each a (List.mem_of_getElem? ha))).mp (hb.trans hb'.symm)⟩

theorem key_unique {α κ : Type} {key : α → κ} {l : List α} (distinct : (l.map key).Nodup)
    {i j : Nat} {a b : α} (ha : l[i]? = some a) (hb : l[j]? = some b) (same : key a = key b) :
    i = j := by
  have hkey : (l.map key)[i]? = some (key a) := by rw [List.getElem?_map, ha]; rfl
  have hkey' : (l.map key)[j]? = some (key b) := by rw [List.getElem?_map, hb]; rfl
  have hlt : i < (l.map key).length := (List.getElem?_eq_some_iff.mp hkey).1
  exact (List.getElem?_inj hlt distinct).mp (by rw [hkey, hkey', same])

theorem resultNames_eq (s : Scenario) : s.resultNames = s.operations.flatMap (·.results) := by
  rw [operations, List.flatMap_assoc]
  rfl

theorem WellFormed.input_unique {s : Scenario} (h : s.WellFormed) {block index index' : Nat}
    {b : BlockDecl} {input : String} (declared : s.blocks[block]? = some b)
    (position : b.inputNames[index]? = some input)
    (position' : b.inputNames[index']? = some input) : index = index' := by
  have distinct := (h.body b (List.mem_of_getElem? declared)).inputs
  have hlt : index < b.inputNames.length := (List.getElem?_eq_some_iff.mp position).1
  exact (List.getElem?_inj hlt distinct).mp (position.trans position'.symm)

theorem Denotes.unique {s : Scenario} (h : s.WellFormed) {inside : Option Nat} {r : Reference}
    {v w : Value} (hv : s.Denotes inside r v) (hw : s.Denotes inside r w) : v = w := by
  cases hv with
  | any =>
      cases hw
      rfl
  | result declared position =>
      cases hw with
      | result declared' position' =>
          have distinct := s.resultNames_eq ▸ h.results
          obtain ⟨rfl, rfl⟩ := place_unique distinct declared position declared' position'
          rfl
  | @stored index d declared =>
      generalize e : Reference.stored d.name = r at hw
      cases hw with
      | stored declared' =>
          rw [key_unique h.storages declared declared' (Reference.stored.inj e)]
      | _ => cases e
  | own here declared position =>
      cases hw with
      | own here' declared' position' =>
          rw [here, Option.some.injEq] at here'
          subst here'
          rw [declared, Option.some.injEq] at declared'
          subst declared'
          rw [h.input_unique declared position position']
  | @foreign block index b input declared position =>
      generalize e : Reference.argument (some b.name) input = r at hw
      cases hw with
      | foreign declared' position' =>
          obtain ⟨hname, rfl⟩ := Reference.argument.inj e
          have same := key_unique h.blocks declared declared' (Option.some.inj hname)
          subst same
          rw [declared, Option.some.injEq] at declared'
          subst declared'
          rw [h.input_unique declared position position']
      | _ => cases e
  | constant number =>
      cases hw
      rfl

theorem Refers.unique {s : Scenario} (h : s.WellFormed) {inside : Option Nat} {text : String}
    {v w : Value} (hv : s.Refers inside text v) (hw : s.Refers inside text w) : v = w := by
  obtain ⟨r, written, hv⟩ := hv
  obtain ⟨r', written', hw⟩ := hw
  have same := written'.parse?
  rw [written.parse?, Option.some.injEq] at same
  subst same
  exact hv.unique h hw

end Scenario

/-! ## Numerals -/

namespace Reference

theorem digits_toString (n : Nat) : Digits (toString n).toList n := by
  have listed : (toString n).toList = Nat.toDigits 10 n := by
    rw [Nat.toString_eq_repr, Nat.toList_repr]
  rw [listed]
  refine ⟨Nat.toDigits_ne_nil, fun c hc => ?_, Nat.ofDigitChars_ten_toDigits⟩
  exact Nat.isDigit_of_mem_toDigits (by decide) (by decide) hc

theorem numeral_toString (z : Int) : Numeral (toString z).toList z := by
  cases z with
  | ofNat n => exact .unsigned (digits_toString n)
  | negSucc n =>
      have listed : (toString (Int.negSucc n)).toList = '-' :: (toString (n + 1)).toList := by
        change ("-" ++ toString (n + 1)).toList = _
        rw [String.toList_append]
        rfl
      rw [listed]
      exact .negative (digits_toString (n + 1))

theorem written_toString (number : Int64) :
    Written (toString number.toInt) (.constant number) :=
  .constant (numeral_toString number.toInt)

end Reference

/-- A number may also be given by its numeral. -/
theorem Scenario.Build.toInput_toString (scope : Scope) (owner : String) (number : Int64) :
    toInput scope owner (.reference (toString number.toInt)) = .ok (.constant number) := by
  simp only [toInput, Scope.resolve, (Reference.written_toString number).parse?]
  rfl

end TagFlow
