import TagFlow.Proofs.Policy.Compile
import TagFlow.Proofs.Program.Dataflow

/-! # How the operations of a module are treated

A tag transform asks that an operation be treated in a special way: with an authored rule it
asks this for itself, with a built-in rule for the merge that it reads. Compiling succeeds
exactly when every transform can ask and no two ask for the same operation, and it gives
every operation the treatment that is asked for it. None of this depends on the order of
the operations.
-/

namespace TagFlow

open TagNames

/-- What the first output of an operation gets: the default label, the label of the first
input changed by a rule, or the merged integrity of the direct inputs. -/
inductive Treatment where
  | plain
  | rule (rule : PolicyRule)
  | merge (kind : MergeKind) (direct : Nat)

namespace Compile

/-- The rule set gives the operation the treatment. -/
def Treats (r : RuleSet) (o : Operation) : Treatment → Prop
  | .plain => r.actions.find? o.id = none
  | .rule rule => Compiled r o rule
  | .merge kind direct => ∃ action, r.actions.find? o.id = some action ∧
      r.rules.find? action = some (.ofList [(0, [⟨.merge kind (List.range direct), []⟩])]) ∧
        o.controlStart = .ok direct

/-- A transform asks that an operation be treated in a way. -/
inductive Asks (rules : List PolicyRule) (m : Module) :
    Operation → Operation → Treatment → Prop
  | authored {o : Operation} {rule : PolicyRule} (transform : o.operator = Sql.tagTransform)
      (ready : Compilable rules o rule) : Asks rules m o o (.rule rule)
  | internal {o operand : Operation} {name : String} {direct : Nat}
      (transform : o.operator = Sql.tagTransform) (named : o.ruleName = .ok name)
      (builtIn : Sql.isInternalRule name = true) (reads : mergeOperand m o = .ok operand)
      (start : operand.controlStart = .ok direct) :
      Asks rules m o operand
        (.merge (if name = Sql.unionRule then .union else .intersect) direct)

variable {rules : List PolicyRule} {m : Module} {o q target target' : Operation}
  {t t' : Treatment}

theorem Asks.transform (h : Asks rules m o target t) : o.operator = Sql.tagTransform := by
  cases h <;> assumption

theorem Asks.ruleName (h : Asks rules m o target t) : ∃ name, o.ruleName = .ok name := by
  cases h with
  | authored _ ready => exact ⟨_, ready.2.1⟩
  | internal _ named => exact ⟨_, named⟩

/-- A transform asks for one thing only. -/
theorem Asks.unique (h : Asks rules m o target t) (h' : Asks rules m o target' t') :
    target = target' ∧ t = t' := by
  cases h with
  | authored _ ready =>
      cases h' with
      | authored _ ready' => exact ⟨rfl, by rw [ready.rule_unique ready']⟩
      | internal _ named builtIn =>
          have hname := ready.2.1
          rw [named, Except.ok.injEq] at hname
          rw [hname, ready.2.2.1] at builtIn
          cases builtIn
  | internal _ named builtIn reads start =>
      cases h' with
      | authored _ ready =>
          have hname := ready.2.1
          rw [named, Except.ok.injEq] at hname
          rw [hname, ready.2.2.1] at builtIn
          cases builtIn
      | internal _ named' _ reads' start' =>
          rw [reads, Except.ok.injEq] at reads'
          subst reads'
          rw [start, Except.ok.injEq] at start'
          rw [named, Except.ok.injEq] at named'
          exact ⟨rfl, by rw [start', named']⟩

/-- The only input is a result of a merge of the module. -/
theorem mergeOperand_eq_ok {operand : Operation} :
    mergeOperand m o = .ok operand ↔
      ∃ id index, o.inputs = [.result id index] ∧ m.findOperation? id = some operand ∧
        operand.operator = Sql.merge := by
  unfold mergeOperand
  match hin : o.inputs with
  | [] => simp [bind, Except.bind, throw, throwThe, MonadExceptOf.throw]
  | [v] =>
      have hvalue : o.transformedValue = .ok v := Operation.input_eq_ok.mpr (by rw [hin]; rfl)
      cases v with
      | result id index =>
          cases hfind : m.findOperation? id with
          | none =>
              simp [hvalue, hfind, bind, Except.bind, throw, throwThe, MonadExceptOf.throw]
          | some found =>
              by_cases hop : found.operator = Sql.merge
              · simp [hvalue, hfind, hop, bind, Except.bind, pure, Except.pure]
                exact fun e => e ▸ hop
              · simp [hvalue, hfind, hop, bind, Except.bind, throw, throwThe, MonadExceptOf.throw]
                exact fun e => e ▸ hop
      | _ => simp [hvalue, bind, Except.bind, throw, throwThe, MonadExceptOf.throw]
  | v :: w :: rest => simp [bind, Except.bind, throw, throwThe, MonadExceptOf.throw]

theorem Asks.mem_target (distinct : (m.operations.map (·.id)).Nodup) (ho : o ∈ m.operations)
    (h : Asks rules m o target t) : target ∈ m.operations := by
  cases h with
  | authored => exact ho
  | internal _ _ _ reads _ =>
      obtain ⟨id, index, -, hfind, -⟩ := mergeOperand_eq_ok.mp reads
      exact ((Module.findOperation?_eq_some_iff distinct).mp hfind).1

/-! ## One transform -/

/-- The target gets a new action with the steps of its treatment. -/
structure Adds (r r' : RuleSet) (target : Operation) (action : String) (t : Treatment) :
    Prop where
  names : Grows r.tagNames r'.tagNames
  actions : r'.actions = r.actions.insert target.id action
  rules : ∃ outputs, r'.rules = r.rules.insert action outputs
  treats : Treats r' target t

variable {r r' : RuleSet} {action : String}

theorem Adds.extends (h : Adds r r' target action t)
    (unmarked : r.actions.find? target.id = none) (new : r.rules.find? action = none) :
    Extends r r' := by
  refine ⟨h.names, ?_, ?_⟩
  · intro id other hother
    have hne : id ≠ target.id := by
      intro e
      rw [e, unmarked] at hother
      cases hother
    rw [h.actions, OrdMap.find?_insert_of_ne _ _ hne]
    exact hother
  · intro other found hother
    have hne : other ≠ action := by
      intro e
      rw [e, new] at hother
      cases hother
    obtain ⟨outputs, hrules⟩ := h.rules
    rw [hrules, OrdMap.find?_insert_of_ne _ _ hne]
    exact hother

theorem Treats.extends (h : Treats r o t) (ext : Extends r r') (special : t ≠ .plain) :
    Treats r' o t := by
  cases t with
  | plain => exact absurd rfl special
  | rule rule => exact Compiled.extends h ext
  | merge kind direct =>
      obtain ⟨action, haction, hrules, hdirect⟩ := h
      exact ⟨action, ext.actions _ _ haction, ext.rules _ _ hrules, hdirect⟩

theorem mark_eq_ok {id : OperationId} :
    r.mark id action = .ok r' ↔
      r.actions.find? id = none ∧ { r with actions := r.actions.insert id action } = r' := by
  unfold RuleSet.mark OrdMap.contains
  cases r.actions.find? id <;> simp

theorem addRules_of_new {outputs : OutputRules} (new : r.rules.find? action = none) :
    r.addRules action outputs = .ok { r with rules := r.rules.insert action outputs } := by
  simp [RuleSet.addRules, OrdMap.contains, new]

theorem authored_total {rule : PolicyRule} (h : Compilable rules o rule)
    (unmarked : r.actions.find? o.id = none) (new : r.rules.find? action = none) :
    ∃ r', authored rules o rule.name action r = .ok r' ∧ Adds r r' o action (.rule rule) := by
  obtain ⟨hrule, -, -, roles, hroles, given⟩ := h
  obtain ⟨ps, r₁, hps, hactions₁, hrules₁, hgrows₁, hall⟩ :=
    premises_total given { r with actions := r.actions.insert o.id action }
  obtain ⟨hactions₂, hrules₂, hgrows₂, htag⟩ := RuleSet.intern_spec r₁ rule.tag
  let r₂ := (r₁.intern rule.tag).2
  have hactions : r₂.actions = r.actions.insert o.id action := hactions₂.trans hactions₁
  have hrules : r₂.rules = r.rules := hrules₂.trans hrules₁
  let outputs := steps rule (r₁.intern rule.tag).1 ps
  refine ⟨{ r₂ with rules := r₂.rules.insert action outputs }, ?_, hgrows₁.trans hgrows₂, hactions,
    ⟨outputs, by rw [hrules]⟩, ?_⟩
  · have htransform : transformRules rule o { r with actions := r.actions.insert o.id action } =
        .ok (outputs, r₂) := by
      rw [transformRules, hroles]
      simp only [bind, Except.bind, hps]
      rfl
    simp only [authored, hrule, mark_eq_ok.mpr ⟨unmarked, rfl⟩, bind, Except.bind, htransform]
    exact addRules_of_new (hrules ▸ new)
  · refine ⟨action, roles, (r₁.intern rule.tag).1, ps, ?_, OrdMap.find?_insert_self _ _ _, hroles,
      htag, ?_⟩
    · simp only [hactions]
      exact OrdMap.find?_insert_self _ _ _
    · exact hall.imp fun p q hpq => ⟨hpq.1, number?_of_isPrefix hgrows₂.isPrefix hpq.2⟩

theorem internal_total {operand : Operation} {name : String} {direct : Nat}
    (reads : mergeOperand m o = .ok operand) (start : operand.controlStart = .ok direct)
    (unmarked : r.actions.find? operand.id = none) (new : r.rules.find? action = none) :
    ∃ r', internal m o name action r = .ok r' ∧ Adds r r' operand action
      (.merge (if name = Sql.unionRule then .union else .intersect) direct) := by
  let kind := if name = Sql.unionRule then MergeKind.union else .intersect
  let outputs : OutputRules := .ofList [(0, [⟨.merge kind (List.range direct), []⟩])]
  refine ⟨{ r with
      actions := r.actions.insert operand.id action, rules := r.rules.insert action outputs },
    ?_, .refl _, rfl, ⟨outputs, rfl⟩, action, OrdMap.find?_insert_self _ _ _,
    OrdMap.find?_insert_self _ _ _, start⟩
  simp only [internal, reads, mark_eq_ok.mpr ⟨unmarked, rfl⟩, mergeRules, start, bind, Except.bind,
    pure, Except.pure]
  exact addRules_of_new new

/-- What compiling one transform does, by the kind of rule that it names. -/
theorem ask_total (asks : Asks rules m o target t) {name : String}
    (named : o.ruleName = .ok name) (unmarked : r.actions.find? target.id = none)
    (new : r.rules.find? action = none) :
    ∃ r', (if Sql.isInternalRule name then internal m o name action r
      else authored rules o name action r) = .ok r' ∧ Adds r r' target action t := by
  cases asks with
  | authored _ ready =>
      have hname := ready.2.1
      rw [named, Except.ok.injEq] at hname
      subst hname
      rw [if_neg (by rw [ready.2.2.1]; decide)]
      exact authored_total ready unmarked new
  | internal _ named' builtIn reads start =>
      rw [named, Except.ok.injEq] at named'
      subst named'
      rw [if_pos builtIn]
      exact internal_total reads start unmarked new

/-! ### What a compiled transform has asked for -/

theorem positions_of_premises {roles : List (String × Nat)} {preconditions : List Precondition}
    {result : List Premise × RuleSet} (h : premises roles r preconditions = .ok result) :
    ∀ p, p ∈ preconditions → ∃ position, roles.lookup p.argument = some position := by
  induction preconditions generalizing r result with
  | nil => simp
  | cons p rest ih =>
      simp only [premises] at h
      cases hposition : roles.lookup p.argument with
      | none => simp [hposition] at h
      | some position =>
          simp only [hposition] at h
          obtain ⟨found, hfound, -⟩ := Outcome.bind_eq_ok.mp h
          intro q hq
          rcases List.mem_cons.mp hq with rfl | hq
          · exact ⟨position, hposition⟩
          · exact ih hfound q hq

theorem asks_of_authored (transform : o.operator = Sql.tagTransform) {name : String}
    (named : o.ruleName = .ok name) (builtIn : Sql.isInternalRule name = false)
    (h : authored rules o name action r = .ok r') :
    ∃ rule, Asks rules m o o (.rule rule) ∧ r.actions.find? o.id = none := by
  unfold authored at h
  cases hrule : rules.find? (·.name = name) with
  | none => simp [hrule] at h
  | some rule =>
      simp only [hrule] at h
      have hname : rule.name = name := by simpa using List.find?_some hrule
      subst hname
      obtain ⟨r₁, hmark, h⟩ := Outcome.bind_eq_ok.mp h
      obtain ⟨outputs, htransform, -⟩ := Outcome.bind_eq_ok.mp h
      obtain ⟨roles, hroles, htransform⟩ := Outcome.bind_eq_ok.mp htransform
      obtain ⟨ps, hps, -⟩ := Outcome.bind_eq_ok.mp htransform
      have ready : Compilable rules o rule :=
        ⟨hrule, named, builtIn, roles, hroles, positions_of_premises hps⟩
      exact ⟨rule, .authored transform ready, (mark_eq_ok.mp hmark).1⟩

theorem asks_of_internal (transform : o.operator = Sql.tagTransform) {name : String}
    (named : o.ruleName = .ok name) (builtIn : Sql.isInternalRule name = true)
    (h : internal m o name action r = .ok r') :
    ∃ operand t, Asks rules m o operand t ∧ r.actions.find? operand.id = none := by
  obtain ⟨operand, reads, h⟩ := Outcome.bind_eq_ok.mp h
  obtain ⟨r₁, hmark, h⟩ := Outcome.bind_eq_ok.mp h
  obtain ⟨outputs, hmerge, -⟩ := Outcome.bind_eq_ok.mp h
  obtain ⟨direct, start, -⟩ := Outcome.bind_eq_ok.mp hmerge
  exact ⟨operand, _, .internal transform named builtIn reads start, (mark_eq_ok.mp hmark).1⟩

/-! ## All transforms -/

/-- What holds after some operations: transforms have asked, no two of them for the same
operation, exactly what they ask for is done, and the number in the name of an action has been
used up for its rule. -/
structure Invariant (rules : List PolicyRule) (m : Module) (done : List Operation)
    (p : Progress) : Prop where
  nodup : p.ruleSet.tagNames.Nodup
  asked : ∀ o, o ∈ done → o.operator = Sql.tagTransform → ∃ target t, Asks rules m o target t
  apart : ∀ o q target target' t t', o ∈ done → q ∈ done → Asks rules m o target t →
    Asks rules m q target' t' → target.id = target'.id → o = q
  treated : ∀ o target t, o ∈ done → Asks rules m o target t → Treats p.ruleSet target t
  marked : ∀ id action, p.ruleSet.actions.find? id = some action →
    ∃ o target t, o ∈ done ∧ Asks rules m o target t ∧ target.id = id
  named : ∀ action outputs, p.ruleSet.rules.find? action = some outputs →
    ∃ name count, action = name ++ "_" ++ toString count ∧
      count < (p.counts.find? name).getD 0

theorem Asks.special (h : Asks rules m o target t) : t ≠ .plain := by
  cases h <;> exact Treatment.noConfusion

theorem Treats.isSome (h : Treats r o t) (special : t ≠ .plain) :
    ∃ action, r.actions.find? o.id = some action := by
  cases t with
  | plain => exact absurd rfl special
  | rule rule =>
      obtain ⟨action, roles, tag, ps, haction, -⟩ := h
      exact ⟨action, haction⟩
  | merge kind direct =>
      obtain ⟨action, haction, -⟩ := h
      exact ⟨action, haction⟩

variable {done : List Operation} {p : Progress}

/-- The name of the next action for a rule is new. -/
theorem Invariant.new_action (inv : Invariant rules m done p) (name : String) :
    p.ruleSet.rules.find? (name ++ "_" ++ toString ((p.counts.find? name).getD 0)) = none := by
  cases hf : p.ruleSet.rules.find? (name ++ "_" ++ toString ((p.counts.find? name).getD 0)) with
  | none => rfl
  | some outputs =>
      obtain ⟨name', count, heq, hlt⟩ := inv.named _ outputs hf
      obtain ⟨rfl, hcount⟩ := actionName_inj heq
      omega

theorem Invariant.skip (inv : Invariant rules m done p) (hop : o.operator ≠ Sql.tagTransform) :
    Invariant rules m (done ++ [o]) p := by
  have earlier : ∀ q target t, q ∈ done ++ [o] → Asks rules m q target t → q ∈ done := by
    intro q target t hq asks
    rcases List.mem_append.mp hq with hq | hq
    · exact hq
    · rw [List.mem_singleton.mp hq] at asks
      exact absurd asks.transform hop
  refine ⟨inv.nodup, ?_, ?_, ?_, ?_, inv.named⟩
  · intro q hq hqop
    rcases List.mem_append.mp hq with hq | hq
    · exact inv.asked q hq hqop
    · rw [List.mem_singleton.mp hq] at hqop
      exact absurd hqop hop
  · intro q q' target target' t t' hq hq' asks asks'
    exact inv.apart q q' target target' t t' (earlier q target t hq asks)
      (earlier q' target' t' hq' asks') asks asks'
  · intro q target t hq asks
    exact inv.treated q target t (earlier q target t hq asks) asks
  · intro id action hf
    obtain ⟨q, target, t, hq, asks, hid⟩ := inv.marked id action hf
    exact ⟨q, target, t, List.mem_append_left _ hq, asks, hid⟩

theorem Invariant.target_ne (inv : Invariant rules m done p) (hq : q ∈ done)
    (asks : Asks rules m q target' t') (unmarked : p.ruleSet.actions.find? target.id = none) :
    target'.id ≠ target.id := by
  intro hid
  obtain ⟨action, haction⟩ := (inv.treated q target' t' hq asks).isSome asks.special
  rw [hid, unmarked] at haction
  cases haction

theorem Invariant.apart_concat (inv : Invariant rules m done p) (asks : Asks rules m o target t)
    (unmarked : p.ruleSet.actions.find? target.id = none) :
    ∀ a b ta tb sa sb, a ∈ done ++ [o] → b ∈ done ++ [o] → Asks rules m a ta sa →
      Asks rules m b tb sb → ta.id = tb.id → a = b := by
  have differs : ∀ q target' t', q ∈ done → Asks rules m q target' t' → ∀ target'' t'',
      Asks rules m o target'' t'' → target'.id ≠ target''.id := by
    intro q target' t' hq hasks target'' t'' own
    rw [(own.unique asks).1]
    exact inv.target_ne hq hasks unmarked
  intro a b ta tb sa sb ha hb aska askb hid
  rcases List.mem_append.mp ha with ha | ha
  · rcases List.mem_append.mp hb with hb | hb
    · exact inv.apart a b ta tb sa sb ha hb aska askb hid
    · rw [List.mem_singleton.mp hb] at askb
      exact absurd hid (differs a ta sa ha aska tb sb askb)
  · rw [List.mem_singleton.mp ha] at aska ⊢
    rcases List.mem_append.mp hb with hb | hb
    · exact absurd hid.symm (differs b tb sb hb askb ta sa aska)
    · exact (List.mem_singleton.mp hb).symm

/-- The new action uses up the next number of its rule. -/
theorem Invariant.named_concat {name : String} {outputs : OutputRules}
    (inv : Invariant rules m done p)
    (hrules : r'.rules = p.ruleSet.rules.insert
      (name ++ "_" ++ toString ((p.counts.find? name).getD 0)) outputs) :
    ∀ action found, r'.rules.find? action = some found →
      ∃ other count, action = other ++ "_" ++ toString count ∧
        count < ((p.counts.insert name ((p.counts.find? name).getD 0 + 1)).find? other).getD 0 := by
  intro action found hf
  rw [hrules, OrdMap.find?_insert] at hf
  by_cases ha : action = name ++ "_" ++ toString ((p.counts.find? name).getD 0)
  · refine ⟨name, (p.counts.find? name).getD 0, ha, ?_⟩
    rw [OrdMap.find?_insert_self, Option.getD_some]
    omega
  · rw [if_neg ha] at hf
    obtain ⟨other, count, hother, hlt⟩ := inv.named action found hf
    refine ⟨other, count, hother, ?_⟩
    rw [OrdMap.find?_insert]
    by_cases hn : other = name
    · rw [if_pos hn, Option.getD_some]
      rw [hn] at hlt
      omega
    · rw [if_neg hn]
      exact hlt

/-- One more transform. -/
theorem Invariant.concat {name : String} (inv : Invariant rules m done p)
    (asks : Asks rules m o target t) (unmarked : p.ruleSet.actions.find? target.id = none)
    (adds : Adds p.ruleSet r' target
      (name ++ "_" ++ toString ((p.counts.find? name).getD 0)) t) :
    Invariant rules m (done ++ [o])
      ⟨r', p.counts.insert name ((p.counts.find? name).getD 0 + 1)⟩ := by
  have ext := adds.extends unmarked (inv.new_action name)
  obtain ⟨outputs, hrules⟩ := adds.rules
  refine ⟨adds.names.nodup inv.nodup, ?_, inv.apart_concat asks unmarked, ?_, ?_,
    inv.named_concat hrules⟩
  · intro q hq hqop
    rcases List.mem_append.mp hq with hq | hq
    · exact inv.asked q hq hqop
    · rw [List.mem_singleton.mp hq]
      exact ⟨target, t, asks⟩
  · intro q targetq tq hq hasks
    rcases List.mem_append.mp hq with hq | hq
    · exact (inv.treated q targetq tq hq hasks).extends ext hasks.special
    · rw [List.mem_singleton.mp hq] at hasks
      obtain ⟨rfl, rfl⟩ := hasks.unique asks
      exact adds.treats
  · intro id action hf
    simp only [adds.actions, OrdMap.find?_insert] at hf
    by_cases hid : id = target.id
    · exact ⟨o, target, t, by simp, asks, hid.symm⟩
    · rw [if_neg hid] at hf
      obtain ⟨q, targetq, tq, hq, hasks, hqid⟩ := inv.marked id action hf
      exact ⟨q, targetq, tq, by simp [hq], hasks, hqid⟩

theorem operation_of_transform (hop : o.operator = Sql.tagTransform) {name : String}
    (named : o.ruleName = .ok name) :
    operation rules m p o =
      (if Sql.isInternalRule name then
        internal m o name (name ++ "_" ++ toString ((p.counts.find? name).getD 0)) p.ruleSet
      else authored rules o name (name ++ "_" ++ toString ((p.counts.find? name).getD 0))
        p.ruleSet) >>= fun r =>
          .ok ⟨r, p.counts.insert name ((p.counts.find? name).getD 0 + 1)⟩ := by
  rw [operation, if_pos hop, named]
  cases hname : Sql.isInternalRule name <;> simp [hname, bind, Except.bind, pure, Except.pure]

theorem operation_total (inv : Invariant rules m done p)
    (ready : o.operator = Sql.tagTransform →
      ∃ target t, Asks rules m o target t ∧ p.ruleSet.actions.find? target.id = none) :
    ∃ p', operation rules m p o = .ok p' ∧ Invariant rules m (done ++ [o]) p' := by
  by_cases hop : o.operator = Sql.tagTransform
  · obtain ⟨target, t, asks, unmarked⟩ := ready hop
    obtain ⟨name, named⟩ := asks.ruleName
    obtain ⟨r', hr', adds⟩ := ask_total asks named unmarked (inv.new_action name)
    refine ⟨_, ?_, inv.concat asks unmarked adds⟩
    rw [operation_of_transform hop named, hr']
    rfl
  · exact ⟨p, by rw [operation, if_neg hop], inv.skip hop⟩

theorem asks_of_operation {p' : Progress} (hop : o.operator = Sql.tagTransform)
    (h : operation rules m p o = .ok p') :
    ∃ target t, Asks rules m o target t ∧ p.ruleSet.actions.find? target.id = none := by
  have hname : ∃ name, o.ruleName = .ok name := by
    rw [operation, if_pos hop] at h
    obtain ⟨name, named, -⟩ := Outcome.bind_eq_ok.mp h
    exact ⟨name, named⟩
  obtain ⟨name, named⟩ := hname
  rw [operation_of_transform hop named] at h
  obtain ⟨r', h, -⟩ := Outcome.bind_eq_ok.mp h
  cases builtIn : Sql.isInternalRule name with
  | true =>
      rw [if_pos builtIn] at h
      exact asks_of_internal hop named builtIn h
  | false =>
      rw [if_neg (by rw [builtIn]; decide)] at h
      obtain ⟨rule, asks, unmarked⟩ := asks_of_authored (m := m) hop named builtIn h
      exact ⟨o, .rule rule, asks, unmarked⟩

theorem operation_keeps {p' : Progress} (inv : Invariant rules m done p)
    (h : operation rules m p o = .ok p') : Invariant rules m (done ++ [o]) p' := by
  obtain ⟨p'', hp'', inv'⟩ := operation_total inv fun hop => asks_of_operation hop h
  rw [h, Except.ok.injEq] at hp''
  exact hp'' ▸ inv'

/-! ## Seeds -/

theorem addSeed_eq_ok {names : List String} {name : String} :
    RuleSet.addSeed { tagNames := names } name = .ok r ↔
      name ∉ names ∧ r = { tagNames := names ++ [name] } := by
  have htag : RuleSet.tag? { tagNames := names } name = number? names name := rfl
  cases hn : number? names name with
  | none =>
      have hnew := not_mem_of_number? hn
      simp [RuleSet.addSeed, RuleSet.intern, htag, hn, hnew, eq_comm]
  | some tag =>
      have hold : name ∈ names := List.mem_of_getElem? (getElem?_of_number? hn)
      simp [RuleSet.addSeed, htag, hn, hold]

theorem ofSeeds_eq_ok {seeds : List String} :
    RuleSet.ofSeeds seeds = .ok r ↔ seeds.Nodup ∧ r = { tagNames := seeds } := by
  have nodup_concat : ∀ (done : List String) (name : String), done.Nodup → name ∉ done →
      (done ++ [name]).Nodup := by
    intro done name hdone hname
    exact List.nodup_append.mpr ⟨hdone, by simp, by simp; exact fun a ha e => hname (e ▸ ha)⟩
  constructor
  · intro h
    apply Outcome.foldlM_keeps (f := RuleSet.addSeed)
      (fun done (r : RuleSet) => done.Nodup ∧ r = { tagNames := done }) ⟨.nil, rfl⟩ _ h
    intro done name s s' _ ⟨hdone, hs⟩ hstep
    rw [hs, addSeed_eq_ok] at hstep
    exact ⟨nodup_concat done name hdone hstep.1, hstep.2⟩
  · intro ⟨distinct, hr⟩
    obtain ⟨r', hr', rfl⟩ := Outcome.foldlM_total (f := RuleSet.addSeed)
      (fun done (r : RuleSet) => r = { tagNames := done }) (l := seeds) (s := {}) rfl (by
        intro done name s hnext hs
        have hsub := distinct.sublist hnext.sublist
        rw [List.nodup_append] at hsub
        have hnew : name ∉ done := fun hmem => hsub.2.2 name hmem name (by simp) rfl
        exact ⟨_, by rw [hs, addSeed_eq_ok]; exact ⟨hnew, rfl⟩, rfl⟩)
    rw [hr]
    exact hr'

end Compile

open Compile

/-! ## Whole modules -/

/-- How an operation of the module is treated: as some transform asks, and plainly when none
asks. -/
inductive Treatment.Assigned (rules : List PolicyRule) (m : Module) (o : Operation) :
    Treatment → Prop
  | asked {q : Operation} {t : Treatment} (mem : q ∈ m.operations) (asks : Asks rules m q o t) :
      Assigned rules m o t
  | plain (unasked : ∀ q, q ∈ m.operations → ∀ t, ¬ Asks rules m q o t) : Assigned rules m o .plain

/-- Every transform asks for something, and no two ask for the same operation. -/
structure Askable (rules : List PolicyRule) (m : Module) : Prop where
  asked : ∀ o, o ∈ m.operations → o.operator = Sql.tagTransform →
    ∃ target t, Asks rules m o target t
  apart : ∀ o q target target' t t', o ∈ m.operations → q ∈ m.operations →
    Asks rules m o target t → Asks rules m q target' t' → target.id = target'.id → o = q

/-- The rule set treats every operation as it is assigned. -/
structure Realizes (rules : List PolicyRule) (m : Module) (r : RuleSet) : Prop where
  nodup : r.tagNames.Nodup
  treats : ∀ o, o ∈ m.operations → ∀ t, Treatment.Assigned rules m o t → Treats r o t

variable {rules : List PolicyRule} {m : Module} {seeds : List String} {r : RuleSet}

theorem Treatment.exists_assigned (rules : List PolicyRule) (m : Module) (o : Operation) :
    ∃ t, Treatment.Assigned rules m o t := by
  by_cases h : ∃ q t, q ∈ m.operations ∧ Asks rules m q o t
  · obtain ⟨q, t, hq, asks⟩ := h
    exact ⟨t, .asked hq asks⟩
  · exact ⟨.plain, .plain fun q hq t asks => h ⟨q, t, hq, asks⟩⟩

theorem Compile.Invariant.realizes {p : Progress} (distinct : (m.operations.map (·.id)).Nodup)
    (inv : Invariant rules m m.operations p) : Realizes rules m p.ruleSet := by
  refine ⟨inv.nodup, ?_⟩
  intro o ho t assigned
  cases assigned with
  | asked hq asks => exact inv.treated _ o t hq asks
  | plain unasked =>
      cases hf : p.ruleSet.actions.find? o.id with
      | none => exact hf
      | some action =>
          obtain ⟨q, target, t, hq, asks, hid⟩ := inv.marked o.id action hf
          rw [List.inj_on_of_nodup_map distinct (asks.mem_target distinct hq) ho hid] at asks
          exact absurd asks (unasked q hq t)

/-- Compiling goes through all operations of the module's own blocks. -/
theorem compile_invariant (h : compile rules m seeds = .ok r) :
    (rules.map (·.name)).Nodup ∧ seeds.Nodup ∧
      ∃ p, Invariant rules m m.operations p ∧ p.ruleSet = r := by
  obtain ⟨start, hstart, h⟩ := Outcome.bind_eq_ok.mp h
  obtain ⟨hseeds, rfl⟩ := ofSeeds_eq_ok.mp hstart
  cases hrepeat : firstRepeat? (rules.map (·.name)) with
  | some name => simp [hrepeat] at h
  | none =>
      simp only [hrepeat] at h
      obtain ⟨p, hp, h⟩ := Outcome.bind_eq_ok.mp h
      cases h
      have inv : Invariant rules m m.operations p :=
        Outcome.foldlM_keeps (Invariant rules m)
          ⟨hseeds, by simp, by simp, by simp, by simp, by simp⟩
          (fun _ _ _ _ _ inv => operation_keeps inv) hp
      exact ⟨firstRepeat?_eq_none_iff.mp hrepeat, hseeds, p, inv, rfl⟩

theorem compile_eq_ok (distinct : (m.operations.map (·.id)).Nodup)
    (h : compile rules m seeds = .ok r) :
    (rules.map (·.name)).Nodup ∧ seeds.Nodup ∧ Askable rules m ∧ Realizes rules m r := by
  obtain ⟨hrules, hseeds, p, inv, rfl⟩ := compile_invariant h
  exact ⟨hrules, hseeds, ⟨inv.asked, inv.apart⟩, inv.realizes distinct⟩

theorem compile_of_askable (hrules : (rules.map (·.name)).Nodup) (hseeds : seeds.Nodup)
    (distinct : (m.operations.map (·.id)).Nodup) (askable : Askable rules m) :
    ∃ r, compile rules m seeds = .ok r ∧ Realizes rules m r := by
  have start : Invariant rules m [] { ruleSet := { tagNames := seeds } } :=
    ⟨hseeds, by simp, by simp, by simp, by simp, by simp⟩
  obtain ⟨p, hp, inv⟩ := Outcome.foldlM_total (Invariant rules m) start (by
    intro done o p hnext inv
    have ho := Outcome.mem_of_concat_isPrefix hnext
    apply operation_total inv
    intro hop
    obtain ⟨target, t, asks⟩ := askable.asked o ho hop
    refine ⟨target, t, asks, ?_⟩
    cases hf : p.ruleSet.actions.find? target.id with
    | none => rfl
    | some action =>
        obtain ⟨q, target', t', hq, asks', hid⟩ := inv.marked target.id action hf
        have hq' : q ∈ m.operations := hnext.subset (List.mem_append_left _ hq)
        have hsame := askable.apart q o target' target t' t hq' ho asks' asks hid
        have hsub := distinct.sublist (hnext.sublist.map _)
        rw [List.map_append, List.nodup_append] at hsub
        exact absurd (congrArg Operation.id hsame)
          (hsub.2.2 _ (List.mem_map_of_mem hq) _ (by simp)))
  refine ⟨p.ruleSet, ?_, inv.realizes distinct⟩
  rw [compile, ofSeeds_eq_ok.mpr ⟨hseeds, rfl⟩]
  simp only [bind, Except.bind, firstRepeat?_eq_none_iff.mpr hrules, hp]
  rfl

/-- Where all rules are authored, compiling succeeds and gives every transform the steps of its
rule. -/
theorem compile_total (hrules : (rules.map (·.name)).Nodup) (hseeds : seeds.Nodup)
    (distinct : (m.operations.map (·.id)).Nodup)
    (ready : ∀ o, o ∈ m.operations → o.operator = Sql.tagTransform →
      ∃ rule, Compilable rules o rule) :
    ∃ r, compile rules m seeds = .ok r ∧ r.tagNames.Nodup ∧
      (∀ o, o ∈ m.operations → o.operator ≠ Sql.tagTransform → r.actions.find? o.id = none) ∧
      ∀ o rule, o ∈ m.operations → o.operator = Sql.tagTransform → Compilable rules o rule →
        Compiled r o rule := by
  have own : ∀ o, o ∈ m.operations → ∀ target t, Asks rules m o target t → target = o := by
    intro o ho target t asks
    obtain ⟨rule, hready⟩ := ready o ho asks.transform
    exact (asks.unique (.authored asks.transform hready)).1
  have askable : Askable rules m := by
    constructor
    · intro o ho hop
      obtain ⟨rule, hready⟩ := ready o ho hop
      exact ⟨o, .rule rule, .authored hop hready⟩
    · intro o q target target' t t' ho hq asks asks' hid
      rw [own o ho target t asks, own q hq target' t' asks'] at hid
      exact List.inj_on_of_nodup_map distinct ho hq hid
  obtain ⟨r, hr, realizes⟩ := compile_of_askable hrules hseeds distinct askable
  refine ⟨r, hr, realizes.nodup, ?_, ?_⟩
  · intro o ho hop
    apply realizes.treats o ho .plain
    apply Treatment.Assigned.plain
    intro q hq t asks
    rw [own q hq o t asks] at hop
    exact hop asks.transform
  · intro o rule ho hop hready
    exact realizes.treats o ho (.rule rule) (.asked ho (.authored hop hready))

/-! ## The order of the operations -/

section

variable {m' : Module} (reordered : m'.operations.Perm m.operations)
  (distinct : (m.operations.map (·.id)).Nodup)

include reordered distinct

theorem asks_perm {o target : Operation} {t : Treatment} :
    Asks rules m' o target t ↔ Asks rules m o target t := by
  have same : mergeOperand m' o = mergeOperand m o := by
    simp only [mergeOperand, Module.findOperation?_perm reordered distinct]
  constructor
  · intro asks
    cases asks with
    | authored transform ready => exact .authored transform ready
    | internal transform named builtIn reads start =>
        exact .internal transform named builtIn (same ▸ reads) start
  · intro asks
    cases asks with
    | authored transform ready => exact .authored transform ready
    | internal transform named builtIn reads start =>
        exact .internal transform named builtIn (same ▸ reads) start

theorem Askable.perm (h : Askable rules m) : Askable rules m' := by
  have same := @asks_perm rules m m' reordered distinct
  constructor
  · intro o ho hop
    obtain ⟨target, t, asks⟩ := h.asked o (reordered.mem_iff.mp ho) hop
    exact ⟨target, t, same.mpr asks⟩
  · intro o q target target' t t' ho hq asks asks'
    exact h.apart o q target target' t t' (reordered.mem_iff.mp ho) (reordered.mem_iff.mp hq)
      (same.mp asks) (same.mp asks')

theorem Treatment.Assigned.perm {o : Operation} {t : Treatment}
    (h : Treatment.Assigned rules m o t) : Treatment.Assigned rules m' o t := by
  have same := @asks_perm rules m m' reordered distinct
  cases h with
  | asked hq asks => exact .asked (reordered.mem_iff.mpr hq) (same.mpr asks)
  | plain unasked =>
      apply Treatment.Assigned.plain
      intro q hq t asks
      exact unasked q (reordered.mem_iff.mp hq) t (same.mp asks)

end

end TagFlow
