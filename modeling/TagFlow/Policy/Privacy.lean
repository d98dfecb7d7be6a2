import TagFlow.Flow.Worklist
import TagFlow.Policy.Basic

/-! # Privacy budgets

The sensitivity of a value is how many rows of a source one of its rows may depend on;
grouping doubles it. A privacy mechanism spends its epsilon and delta once for each unit
of sensitivity of its first input. Amounts are 64-bit words, and arithmetic stops at the
largest one.
-/

namespace TagFlow

namespace Privacy

def groupBy : String := "sql.group_by"
def mechanism : String := "privacy_mechanism"
def epsilon : String := "epsilon"
def delta : String := "delta"

/-- A number as an amount, the largest one if it does not fit. -/
def clamp (n : Nat) : UInt64 := UInt64.ofNat (min n (UInt64.size - 1))

def addAmounts (a b : UInt64) : UInt64 := clamp (a.toNat + b.toNat)

def mulAmounts (a b : UInt64) : UInt64 := clamp (a.toNat * b.toNat)

theorem toNat_clamp (n : Nat) : (clamp n).toNat = min n (UInt64.size - 1) := by
  rw [clamp, UInt64.toNat_ofNat_of_lt']
  have : UInt64.size = 18446744073709551616 := rfl
  omega

theorem toNat_addAmounts (a b : UInt64) :
    (addAmounts a b).toNat = min (a.toNat + b.toNat) (UInt64.size - 1) := by
  rw [addAmounts, toNat_clamp]

theorem toNat_mulAmounts (a b : UInt64) :
    (mulAmounts a b).toNat = min (a.toNat * b.toNat) (UInt64.size - 1) := by
  rw [mulAmounts, toNat_clamp]

/-! ## Sensitivities -/

/-- `none` is below every sensitivity. -/
def join : Option UInt64 → Option UInt64 → Option UInt64
  | none, s => s
  | s, none => s
  | some a, some b => some (max a b)

def sensitivity (o : Operation) (inputs : List (Option UInt64)) : Option UInt64 :=
  if inputs.isEmpty then some 1
  else
    let largest := inputs.foldl join none
    if o.operator = groupBy then largest.map (mulAmounts · 2) else largest

def analysis : Analysis (Option UInt64) where
  bottom := none
  join := join
  initial := some 1
  height := UInt64.size
  transfer o inputs := .ok (List.replicate o.outputCount (sensitivity o inputs))

def sensitivities (m : Module) : Except Fault (States (Option UInt64)) :=
  Worklist.solve analysis (.ofModule m)

/-! ## Spending -/

/-- A parameter of a mechanism, if it is given. -/
def parameter (o : Operation) (name : String) : Except Fault (Option UInt64) :=
  match o.find? name with
  | none => .ok none
  | some given =>
      match given.integer? with
      | none => .error (.budgetNotInteger name given)
      | some number =>
          if number.toInt < 0 then .error (.negativeBudget name number.toInt)
          else .ok (some (UInt64.ofNat number.toInt.toNat))

/-- A value without a sensitivity counts once. -/
def charge (states : States (Option UInt64)) (spent : Budget) (o : Operation) :
    Except Fault Budget := do
  let eps ←
    match ← parameter o epsilon with
    | some amount => pure amount
    | none => throw (.mechanismWithoutBudget o.id)
  let del := (← parameter o delta).getD 0
  match o.inputs with
  | [] => throw (.mechanismWithoutInput o.id)
  | v :: _ =>
      let factor := ((states.find? v).getD none).getD 1
      return ⟨addAmounts spent.epsilon (mulAmounts eps factor),
        addAmounts spent.delta (mulAmounts del factor)⟩

/-- The privacy loss of a program, summed over its mechanisms. -/
def spent (m : Module) : Except Fault Budget := do
  let g := FlowGraph.ofModule m
  let states ← Worklist.solve analysis g
  (g.operations.filter (·.operator = mechanism)).foldlM (charge states) {}

def check (m : Module) : Policy → Except Fault Bool
  | .privacy limit => do return (← spent m).fits limit
  | other => .error (.wrongPolicy other.factName)

end Privacy

end TagFlow
