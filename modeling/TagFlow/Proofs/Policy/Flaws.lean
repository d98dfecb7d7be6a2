import TagFlow.Policy.Egress
import TagFlow.Policy.Privacy
import TagFlow.Proofs.Decides
import TagFlow.Proofs.Label.Known
import TagFlow.Proofs.Policy.Meaning
import TagFlow.Proofs.Policy.Privacy
import TagFlow.Proofs.Policy.RescanPasses

/-! # Flaws that end a check

What can be wrong with the operations of a module is said of their attributes and inputs alone.
A checker meets a fault exactly when one of the operations that it looks at has a flaw, whatever
the labels, marks or sensitivities are.
-/

namespace TagFlow

open Compile

namespace Operation

/-- The attribute is the number of an input other than the first. -/
def Places (o : Operation) (given : Attribute) : Prop :=
  ∃ index, given = .integer index ∧ 1 ≤ index.toInt ∧ index.toInt < o.inputs.length

/-- The only input is a result of the operation with this id. -/
def Reads (o : Operation) (id : OperationId) : Prop := ∃ index, o.inputs = [.result id index]

/-- A merge that says which of its inputs are direct ones. -/
def Divides (o : Operation) : Prop :=
  o.operator = Sql.merge ∧ ∃ start, o.find? Sql.controlStart = some (.integer start) ∧
    0 ≤ start.toInt ∧ start.toInt ≤ o.inputs.length

end Operation

/-- A tag transform that invokes no rule, or one that is not there, or gives an authored rule an
attribute that is no place of an input. -/
inductive Sql.Misuse (rules : List PolicyRule) (o : Operation) : Prop
  | unnamed (h : ∀ name, ¬ o.Invokes name)
  | unknown {name : String} (invokes : o.Invokes name) (authored : isInternalRule name = false)
      (h : ∀ rule, rule ∈ rules → rule.name ≠ name)
  | misplaced {name key : String} {given : Attribute} (invokes : o.Invokes name)
      (authored : isInternalRule name = false) (find : o.find? key = some given)
      (role : key ≠ ruleName) (h : ¬ o.Places given)

/-- A flaw of a tag transform of the module for the check of labels. -/
inductive Egress.Flaw (rules : List PolicyRule) (m : Module) (o : Operation) : Prop
  | misuse (h : Sql.Misuse rules o)
  | arity {name : String} (invokes : o.Invokes name) (builtIn : Sql.isInternalRule name = true)
      (h : o.inputs.length ≠ 1)
  | operand {name : String} (invokes : o.Invokes name) (builtIn : Sql.isInternalRule name = true)
      (h : ∀ q, q ∈ m.operations → q.Divides → ¬ o.Reads q.id)
  | shared {name other : String} {q : Operation} {id : OperationId}
      {before after : List Operation} (invokes : o.Invokes name)
      (builtIn : Sql.isInternalRule name = true) (order : m.operations = before ++ o :: after)
      (earlier : q ∈ before) (transform : q.operator = Sql.tagTransform)
      (invokes' : q.Invokes other) (builtIn' : Sql.isInternalRule other = true)
      (reads : o.Reads id) (reads' : q.Reads id)
  | noInput {name : String} (invokes : o.Invokes name) (authored : Sql.isInternalRule name = false)
      (h : o.inputs = [])
  | unfilled {name : String} {rule : PolicyRule} {p : Precondition} (invokes : o.Invokes name)
      (authored : Sql.isInternalRule name = false) (mem : rule ∈ rules) (named : rule.name = name)
      (needs : p ∈ rule.preconditions) (h : ¬ o.Assigns p.argument)

/-- A flaw of a tag transform for the check by rescanning. -/
inductive Rescan.Flaw (rules : List PolicyRule) (o : Operation) : Prop
  | misuse (h : Sql.Misuse rules o)
  | noInput (h : o.inputs = [])

/-- A flaw of a privacy mechanism. -/
inductive Privacy.Flaw (o : Operation) : Prop
  | unpriced (h : o.find? epsilon = none)
  | negative {name : String} {given : Attribute} (amount : name = epsilon ∨ name = delta)
      (find : o.find? name = some given) (h : ∀ n, given = .integer n → n.toInt < 0)
  | noInput (h : o.inputs = [])

/-! ## Attributes -/

namespace Operation

variable {o : Operation} {roles : List (String × Nat)}

theorem roles_total_iff :
    (∃ roles, o.roles = .ok roles) ↔
      ∀ key given, o.find? key = some given → key ≠ Sql.ruleName → o.Places given := by
  have position : ∀ name given, (∃ i, o.rolePosition name given = .ok i) ↔ o.Places given := by
    intro name given
    simp only [rolePosition_eq_ok, Attribute.integer?_eq_some_iff, Places]
    constructor
    · rintro ⟨i, index, hgiven, low, high, -⟩
      exact ⟨index, hgiven, low, high⟩
    · rintro ⟨index, hgiven, low, high⟩
      exact ⟨_, index, hgiven, low, high, rfl⟩
  constructor
  · rintro ⟨roles, h⟩ key given hgiven hne
    obtain ⟨role, -, -, hposition⟩ := Outcome.exists_right_of_forall₂ (roles_eq_ok.mp h)
      (mem_roleEntries_iff.mpr ⟨hgiven, hne⟩)
    exact (position _ _).mp ⟨_, hposition⟩
  · intro placed
    apply Outcome.mapM_total
    intro e he
    obtain ⟨hfind, hne⟩ := mem_roleEntries_iff.mp he
    obtain ⟨i, hi⟩ := (position e.1 e.2).mpr (placed e.1 e.2 hfind hne)
    exact ⟨(e.1, i), Outcome.bind_eq_ok.mpr ⟨i, hi, rfl⟩⟩

theorem lookup_roles_total_iff (h : o.roles = .ok roles) {argument : String} :
    (∃ position, roles.lookup argument = some position) ↔ o.Assigns argument := by
  have placed := roles_eq_ok.mp h
  simp only [lookup_roles h]
  constructor
  · rintro ⟨position, hmem⟩
    obtain ⟨e, he, hname, -⟩ := Outcome.exists_left_of_forall₂ placed hmem
    obtain ⟨hfind, hne⟩ := mem_roleEntries_iff.mp he
    have same : argument = e.1 := hname
    exact same ▸ ⟨hne, by rw [hfind]; rfl⟩
  · rintro ⟨hne, hsome⟩
    obtain ⟨given, hgiven⟩ := Option.isSome_iff_exists.mp hsome
    obtain ⟨role, hrole, hname, -⟩ :=
      Outcome.exists_right_of_forall₂ placed (mem_roleEntries_iff.mpr ⟨hgiven, hne⟩)
    have same : role.1 = argument := hname
    exact ⟨role.2, same ▸ hrole⟩

theorem Reads.unique {id id' : OperationId} (h : o.Reads id) (h' : o.Reads id') : id = id' := by
  obtain ⟨index, hinputs⟩ := h
  obtain ⟨index', hinputs'⟩ := h'
  rw [hinputs] at hinputs'
  cases hinputs'
  rfl

theorem divides_iff :
    o.Divides ↔ o.operator = Sql.merge ∧ ∃ direct, o.controlStart = .ok direct := by
  simp only [Divides, controlStart_eq_ok]
  refine and_congr_right fun _ => ⟨?_, ?_⟩
  · rintro ⟨start, hstart, low, high⟩
    exact ⟨_, start, hstart, low, high, rfl⟩
  · rintro ⟨-, start, hstart, low, high, -⟩
    exact ⟨start, hstart, low, high⟩

theorem Invokes.unique {name name' : String} (h : o.Invokes name) (h' : o.Invokes name') :
    name = name' := by
  rw [Invokes, h, Option.some.injEq, Attribute.text.injEq] at h'
  exact h'

end Operation

theorem Sql.not_misuse_iff {rules : List PolicyRule} {o : Operation} :
    ¬ Misuse rules o ↔ ∃ name, o.Invokes name ∧ (isInternalRule name = false →
      (∃ rule, rule ∈ rules ∧ rule.name = name) ∧ ∃ roles, o.roles = .ok roles) := by
  constructor
  · intro fine
    have named : ∃ name, o.Invokes name := by
      by_contra none
      exact fine (.unnamed fun name h => none ⟨name, h⟩)
    obtain ⟨name, invokes⟩ := named
    refine ⟨name, invokes, fun authored => ⟨?_, ?_⟩⟩
    · by_contra none
      exact fine (.unknown invokes authored fun rule hrule e => none ⟨rule, hrule, e⟩)
    · refine Operation.roles_total_iff.mpr fun key given hgiven role => ?_
      by_contra h
      exact fine (.misplaced invokes authored hgiven role h)
  · rintro ⟨name, invokes, usable⟩ misuse
    cases misuse with
    | unnamed h => exact h name invokes
    | unknown invokes' authored h =>
        obtain rfl := invokes.unique invokes'
        obtain ⟨⟨rule, hrule, e⟩, -⟩ := usable authored
        exact h rule hrule e
    | misplaced invokes' authored hgiven role h =>
        obtain rfl := invokes.unique invokes'
        exact h (Operation.roles_total_iff.mp (usable authored).2 _ _ hgiven role)

/-! ## Labels -/

namespace Egress

variable {rules : List PolicyRule} {m : Module} {o : Operation}

theorem mergeOperand_iff (distinct : (m.operations.map (·.id)).Nodup) {q : Operation} :
    mergeOperand m o = .ok q ↔ q ∈ m.operations ∧ o.Reads q.id ∧ q.operator = Sql.merge := by
  rw [mergeOperand_eq_ok]
  constructor
  · rintro ⟨id, index, hinputs, hfind, hop⟩
    obtain ⟨hq, rfl⟩ := (Module.findOperation?_eq_some_iff distinct).mp hfind
    exact ⟨hq, ⟨index, hinputs⟩, hop⟩
  · rintro ⟨hq, ⟨index, hinputs⟩, hop⟩
    exact ⟨q.id, index, hinputs, (Module.findOperation?_eq_some_iff distinct).mpr ⟨hq, rfl⟩, hop⟩

theorem asks_builtIn_iff (distinct : (m.operations.map (·.id)).Nodup)
    (transform : o.operator = Sql.tagTransform) {name : String} (invokes : o.Invokes name)
    (builtIn : Sql.isInternalRule name = true) {q : Operation} :
    (∃ t, Asks rules m o q t) ↔ q ∈ m.operations ∧ q.Divides ∧ o.Reads q.id := by
  have named := Operation.ruleName_eq_ok.mpr invokes
  constructor
  · rintro ⟨t, asks⟩
    cases asks with
    | authored _ ready =>
        have hname := ready.2.1
        rw [named, Except.ok.injEq] at hname
        rw [hname, ready.2.2.1] at builtIn
        cases builtIn
    | internal _ _ _ reads start =>
        obtain ⟨hq, reads, hop⟩ := (mergeOperand_iff distinct).mp reads
        exact ⟨hq, Operation.divides_iff.mpr ⟨hop, _, start⟩, reads⟩
  · rintro ⟨hq, divides, reads⟩
    obtain ⟨hop, direct, start⟩ := Operation.divides_iff.mp divides
    exact ⟨_, .internal transform named builtIn ((mergeOperand_iff distinct).mpr ⟨hq, reads, hop⟩)
      start⟩

theorem asks_authored_iff (distinct : (rules.map (·.name)).Nodup)
    (transform : o.operator = Sql.tagTransform) {name : String} (invokes : o.Invokes name)
    (authored : Sql.isInternalRule name = false) {q : Operation} :
    (∃ t, Asks rules m o q t) ↔
      q = o ∧ (∃ roles, o.roles = .ok roles) ∧
        ∃ rule, rule ∈ rules ∧ rule.name = name ∧
          ∀ p, p ∈ rule.preconditions → o.Assigns p.argument := by
  have named := Operation.ruleName_eq_ok.mpr invokes
  constructor
  · rintro ⟨t, asks⟩
    cases asks with
    | @authored rule _ ready =>
        obtain ⟨hrule, named', -, roles, hroles, given⟩ := ready
        rw [named, Except.ok.injEq] at named'
        refine ⟨rfl, ⟨roles, hroles⟩, rule, List.mem_of_find?_eq_some hrule, named'.symm, ?_⟩
        exact fun p hp => (Operation.lookup_roles_total_iff hroles).mp (given p hp)
    | internal _ named' builtIn =>
        rw [named, Except.ok.injEq] at named'
        rw [← named', authored] at builtIn
        cases builtIn
  · rintro ⟨rfl, ⟨roles, hroles⟩, rule, hrule, rfl, assigned⟩
    refine ⟨.rule rule, .authored transform
      ⟨Outcome.find?_key_of_mem distinct hrule, named, authored, roles, hroles, fun p hp => ?_⟩⟩
    exact (Operation.lookup_roles_total_iff hroles).mpr (assigned p hp)

theorem not_misuse_of_asks {q : Operation} {t : Treatment} (asks : Asks rules m o q t) :
    ¬ Sql.Misuse rules o := by
  rw [Sql.not_misuse_iff]
  cases asks with
  | @authored rule _ ready =>
      obtain ⟨hrule, named, -, roles, hroles, -⟩ := ready
      exact ⟨rule.name, Operation.ruleName_eq_ok.mp named, fun _ =>
        ⟨⟨rule, List.mem_of_find?_eq_some hrule, rfl⟩, roles, hroles⟩⟩
  | internal _ named builtIn =>
      refine ⟨_, Operation.ruleName_eq_ok.mp named, fun authored => ?_⟩
      rw [builtIn] at authored
      cases authored

theorem exists_asks_of_flawless (distinct : (m.operations.map (·.id)).Nodup)
    (names : (rules.map (·.name)).Nodup) (transform : o.operator = Sql.tagTransform)
    (flawless : ¬ Flaw rules m o) : ∃ target t, Asks rules m o target t := by
  obtain ⟨name, invokes, usable⟩ :=
    Sql.not_misuse_iff.mp fun (misuse : Sql.Misuse rules o) => flawless (.misuse misuse)
  cases kind : Sql.isInternalRule name with
  | true =>
      by_contra none
      exact flawless (.operand invokes kind fun q hq divides reads =>
        none ⟨q, (asks_builtIn_iff distinct transform invokes kind).mpr ⟨hq, divides, reads⟩⟩)
  | false =>
      obtain ⟨⟨rule, hrule, hname⟩, roles⟩ := usable kind
      have assigned : ∀ p, p ∈ rule.preconditions → o.Assigns p.argument := by
        intro p hp
        by_contra h
        exact flawless (.unfilled invokes kind hrule hname hp h)
      exact ⟨o, (asks_authored_iff names transform invokes kind).mpr
        ⟨rfl, roles, rule, hrule, hname, assigned⟩⟩

/-- Two transforms with built-in rules share no merge, or the later one has a flaw. -/
theorem eq_of_shared {q : Operation} (ho : o ∈ m.operations) (hq : q ∈ m.operations)
    (transform : o.operator = Sql.tagTransform) (transform' : q.operator = Sql.tagTransform)
    {name other : String} (invokes : o.Invokes name) (invokes' : q.Invokes other)
    (builtIn : Sql.isInternalRule name = true) (builtIn' : Sql.isInternalRule other = true)
    {id : OperationId} (reads : o.Reads id) (reads' : q.Reads id)
    (flawless : ∀ o, o ∈ m.operations → o.operator = Sql.tagTransform → ¬ Flaw rules m o) :
    o = q := by
  obtain ⟨before, after, order⟩ := List.append_of_mem ho
  rw [order, List.mem_append, List.mem_cons] at hq
  rcases hq with hq | rfl | hq
  · exact absurd (.shared invokes builtIn order hq transform' invokes' builtIn' reads reads')
      (flawless o ho transform)
  · rfl
  · obtain ⟨between, rest, rfl⟩ := List.append_of_mem hq
    have order' : m.operations = (before ++ o :: between) ++ q :: rest := by simp [order]
    have hq : q ∈ m.operations := by simp [order']
    exact absurd (.shared invokes' builtIn' order' (by simp) transform invokes builtIn reads' reads)
      (flawless q hq transform')

theorem target_cases (distinct : (m.operations.map (·.id)).Nodup) {q : Operation} {t : Treatment}
    (asks : Asks rules m o q t) :
    q = o ∨ ∃ name, o.Invokes name ∧ Sql.isInternalRule name = true ∧ q.operator = Sql.merge ∧
      o.Reads q.id := by
  cases asks with
  | authored => exact .inl rfl
  | internal _ named builtIn reads _ =>
      obtain ⟨-, reads, hop⟩ := (mergeOperand_iff distinct).mp reads
      exact .inr ⟨_, Operation.ruleName_eq_ok.mp named, builtIn, hop, reads⟩

theorem askable_of_flawless (distinct : (m.operations.map (·.id)).Nodup)
    (names : (rules.map (·.name)).Nodup)
    (flawless : ∀ o, o ∈ m.operations → o.operator = Sql.tagTransform → ¬ Flaw rules m o) :
    Askable rules m := by
  refine ⟨fun o ho transform =>
    exists_asks_of_flawless distinct names transform (flawless o ho transform), ?_⟩
  intro o q target target' t t' ho hq asks asks' hid
  have same := List.inj_on_of_nodup_map distinct (asks.mem_target distinct ho)
    (asks'.mem_target distinct hq) hid
  subst same
  rcases target_cases distinct asks with rfl | ⟨name, invokes, builtIn, hop, reads⟩
  · rcases target_cases distinct asks' with e | ⟨other, -, -, hop, -⟩
    · exact e
    · exact absurd (asks.transform.symm.trans hop) (by decide)
  · rcases target_cases distinct asks' with rfl | ⟨other, invokes', builtIn', -, reads'⟩
    · exact absurd (asks'.transform.symm.trans hop) (by decide)
    · exact eq_of_shared ho hq asks.transform asks'.transform invokes invokes' builtIn builtIn'
        reads reads' flawless

theorem noInput_of_flaw (distinct : (m.operations.map (·.id)).Nodup)
    (names : (rules.map (·.name)).Nodup) (askable : Askable rules m) (ho : o ∈ m.operations)
    (transform : o.operator = Sql.tagTransform) (flaw : Flaw rules m o) :
    o.inputs = [] ∧ ∃ rule, Treatment.Assigned rules m o (.rule rule) := by
  obtain ⟨target, t, asks⟩ := askable.asked o ho transform
  cases flaw with
  | misuse h => exact absurd h (not_misuse_of_asks asks)
  | arity invokes builtIn h =>
      obtain ⟨-, -, index, hinputs⟩ :=
        (asks_builtIn_iff distinct transform invokes builtIn).mp ⟨t, asks⟩
      exact absurd (congrArg List.length hinputs) h
  | operand invokes builtIn h =>
      obtain ⟨hq, divides, reads⟩ :=
        (asks_builtIn_iff distinct transform invokes builtIn).mp ⟨t, asks⟩
      exact absurd reads (h target hq divides)
  | @shared name other q id before after invokes builtIn order earlier transform' invokes' builtIn'
      reads reads' =>
      have hq : q ∈ m.operations := by simp [order, earlier]
      obtain ⟨target', t', asks'⟩ := askable.asked q hq transform'
      obtain ⟨-, -, own⟩ := (asks_builtIn_iff distinct transform invokes builtIn).mp ⟨t, asks⟩
      obtain ⟨-, -, own'⟩ :=
        (asks_builtIn_iff distinct transform' invokes' builtIn').mp ⟨t', asks'⟩
      have hid : target.id = target'.id := (own.unique reads).trans (reads'.unique own')
      have same := askable.apart o q target target' t t' ho hq asks asks' hid
      rw [order, List.map_append, List.map_cons, List.nodup_append] at distinct
      exact absurd (congrArg Operation.id same.symm)
        (distinct.2.2 _ (List.mem_map_of_mem earlier) _ List.mem_cons_self)
  | noInput invokes authored h =>
      obtain ⟨rule, -, ready⟩ :=
        askable.authored ho ⟨transform, invokes, authored⟩
      exact ⟨h, rule, .asked ho (.authored transform ready)⟩
  | unfilled invokes authored hrule named hp h =>
      obtain ⟨-, -, rule', hrule', named', assigned⟩ :=
        (asks_authored_iff names transform invokes authored).mp ⟨t, asks⟩
      have same := List.inj_on_of_nodup_map names hrule hrule' (named.trans named'.symm)
      exact absurd (assigned _ (same ▸ hp)) h

theorem suits_of_flawless (distinct : (m.operations.map (·.id)).Nodup)
    (flawless : ∀ o, o ∈ m.operations → o.operator = Sql.tagTransform → ¬ Flaw rules m o)
    (sized : ∀ o, o ∈ m.operations → o.operator = Sql.merge ∨ o.operator = Sql.tagTransform →
      0 < o.outputCount)
    (ho : o ∈ m.operations) {t : Treatment} (assigned : Treatment.Assigned rules m o t) :
    t.Suits o := by
  cases assigned with
  | plain => trivial
  | asked hq asks =>
      cases asks with
      | authored transform ready =>
          refine ⟨sized o ho (.inr transform), List.length_pos_of_ne_nil fun none => ?_⟩
          exact flawless o ho transform
            (.noInput (Operation.ruleName_eq_ok.mp ready.2.1) ready.2.2.1 none)
      | internal _ _ _ reads _ =>
          obtain ⟨-, -, hop⟩ := (mergeOperand_iff distinct).mp reads
          exact sized o ho (.inl hop)

/-- Labels can be checked exactly when no tag transform has a flaw. -/
theorem check_total_iff {seeds egress : List String} (linked : m.Linked)
    (names : (rules.map (·.name)).Nodup) (hseeds : seeds.Nodup)
    (sized : ∀ o, o ∈ m.operations → o.operator = Sql.merge ∨ o.operator = Sql.tagTransform →
      0 < o.outputCount) :
    (∃ verdict, (do check (← compile rules m seeds) egress m : Except Fault Bool) = .ok verdict) ↔
      ∀ o, o ∈ m.operations → o.operator = Sql.tagTransform → ¬ Flaw rules m o := by
  have occurrences := linked.flat.occurrences
  constructor
  · rintro ⟨verdict, h⟩ o ho transform flaw
    obtain ⟨r, hr, h⟩ := Outcome.bind_eq_ok.mp h
    obtain ⟨states, hstates, -⟩ := Outcome.bind_eq_ok.mp h
    obtain ⟨-, -, askable, realizes⟩ := compile_eq_ok linked.distinct hr
    obtain ⟨none, rule, assigned⟩ := noInput_of_flaw linked.distinct names askable ho transform flaw
    obtain ⟨outs, houts, -⟩ := RuleSet.settled_of_known (occurrences ▸ linked.distinct) hstates
      (occurrences ▸ ho) (by simp [none])
    have suits := (realizes.treats o ho _ assigned).suits (List.length_map _) houts
    exact absurd suits.2 (by simp [none])
  · intro flawless
    have askable := askable_of_flawless linked.distinct names flawless
    obtain ⟨r, hr, realizes⟩ := compile_of_askable names hseeds linked.distinct askable
    have total := realizes.totalOn fun o ho t assigned =>
      suits_of_flawless linked.distinct flawless sized ho assigned
    obtain ⟨states, hstates⟩ := Worklist.solve_total r.analysis_joinLaws total
    rw [← occurrences] at hstates
    exact ⟨_, Outcome.bind_eq_ok.mpr ⟨r, hr, Outcome.bind_eq_ok.mpr ⟨states, hstates, rfl⟩⟩⟩

end Egress

/-! ## Rescans -/

namespace Rescan

variable {rules : List PolicyRule} {book : RuleBook} {m : Module} {o : Operation}

theorem accepts_iff_flawless (holds : book.Holds rules)
    (transform : o.operator = Sql.tagTransform) : Accepts book o ↔ ¬ Flaw rules o := by
  constructor
  · intro accepts flaw
    obtain ⟨v, hv, kind⟩ := accepts transform
    cases flaw with
    | misuse misuse =>
        refine Sql.not_misuse_iff.mpr ?_ misuse
        rcases kind with ⟨name, named, builtIn⟩ | ⟨entry, values, ⟨name, named, -, found⟩, read⟩
        · refine ⟨name, Operation.ruleName_eq_ok.mp named, fun authored => ?_⟩
          rw [builtIn] at authored
          cases authored
        · obtain ⟨rule, hrule, hname, -⟩ := holds.rule name entry found
          obtain ⟨roles, hroles, -⟩ := Outcome.bind_eq_ok.mp read
          exact ⟨name, Operation.ruleName_eq_ok.mp named, fun _ =>
            ⟨⟨rule, hrule, hname⟩, roles, hroles⟩⟩
    | noInput none =>
        rw [transformedValue_eq_ok, none] at hv
        cases hv
  · intro flawless _
    have reads : o.inputs ≠ [] := fun none => flawless (.noInput none)
    obtain ⟨v, rest, hinputs⟩ := List.exists_cons_of_ne_nil reads
    refine ⟨v, transformedValue_eq_ok.mpr (by rw [hinputs]; rfl), ?_⟩
    obtain ⟨name, invokes, usable⟩ :=
      Sql.not_misuse_iff.mp fun (misuse : Sql.Misuse rules o) => flawless (.misuse misuse)
    have named := Operation.ruleName_eq_ok.mpr invokes
    cases kind : Sql.isInternalRule name with
    | true => exact .inl ⟨name, named, kind⟩
    | false =>
        obtain ⟨⟨rule, hrule, rfl⟩, roles, hroles⟩ := usable kind
        obtain ⟨entry, hentry, -⟩ := holds.entry rule hrule
        obtain ⟨values, hvalues, -⟩ := Operation.roleValues_total hroles
        exact .inr ⟨entry, values, ⟨rule.name, named, kind, hentry⟩, hvalues⟩

theorem accepts_of_check {verdict : Option Bool} (h : check book m = .ok verdict) :
    ∀ o, o ∈ m.operations → Accepts book o := by
  obtain ⟨fixed, hfixed, -⟩ := Outcome.bind_eq_ok.mp h
  obtain ⟨s, hpass, -⟩ := Outcome.bind_eq_ok.mp hfixed
  exact Outcome.foldlM_keeps (fun done _ => ∀ o, o ∈ done → Accepts book o) (by simp)
    (by
      intro done o s s' _ inv hvisit q hq
      obtain ⟨r, hr, -⟩ := Outcome.bind_eq_ok.mp hvisit
      rcases List.mem_append.mp hq with hq | hq
      · exact inv q hq
      · rw [List.mem_singleton.mp hq]
        exact accepts_of_transfer hr) hpass

/-- Rescans meet a fault exactly when a tag transform has a flaw, also where they never settle. -/
theorem check_total_iff (holds : book.Holds rules) :
    (∃ verdict, check book m = .ok verdict) ↔
      ∀ o, o ∈ m.operations → o.operator = Sql.tagTransform → ¬ Flaw rules o := by
  constructor
  · rintro ⟨verdict, h⟩ o ho transform
    exact (accepts_iff_flawless holds transform).mp (accepts_of_check h o ho)
  · intro flawless
    have accepts : ∀ o, o ∈ m.operations → Accepts book o := fun o ho transform =>
      (accepts_iff_flawless holds transform).mpr (flawless o ho transform) transform
    obtain ⟨fixed, hfixed⟩ := run_total accepts (passLimit book m) {}
    exact ⟨_, Outcome.bind_eq_ok.mpr ⟨fixed, hfixed, rfl⟩⟩

end Rescan

/-! ## Budgets -/

namespace Privacy

variable {o : Operation}

theorem parameter_total_iff {name : String} :
    (∃ amount, parameter o name = .ok amount) ↔
      ∀ given, o.find? name = some given → ∃ n, given = .integer n ∧ 0 ≤ n.toInt := by
  unfold parameter
  cases hfind : o.find? name with
  | none => simp
  | some given =>
      cases hinteger : given.integer? with
      | none =>
          have other : ∀ n, given ≠ .integer n := by
            rintro n rfl
            cases hinteger
          simp [hinteger, other]
      | some n =>
          obtain rfl := Attribute.integer?_eq_some_iff.mp hinteger
          by_cases negative : n.toInt < 0
          · simp [hinteger, negative]
          · simp [hinteger, negative, Int.not_lt.mp negative]

theorem parameter_isSome_iff {name : String} {amount : Option UInt64}
    (h : parameter o name = .ok amount) : amount = none ↔ o.find? name = none := by
  unfold parameter at h
  cases hfind : o.find? name with
  | none =>
      rw [hfind] at h
      cases h
      simp
  | some given =>
      simp only [hfind] at h
      split at h
      case h_1 => cases h
      case h_2 =>
        split at h
        case isTrue => cases h
        case isFalse =>
          cases h
          simp

theorem charge_total_iff {states : States (Option UInt64)} {before : Budget} :
    (∃ after, charge states before o = .ok after) ↔ ¬ Flaw o := by
  constructor
  · rintro ⟨after, h⟩ flaw
    obtain ⟨given, hepsilon, h⟩ := Outcome.bind_eq_ok.mp h
    cases given with
    | none => cases h
    | some eps =>
        obtain ⟨_, _, h⟩ := Outcome.bind_eq_ok.mp h
        obtain ⟨del, hdelta, h⟩ := Outcome.bind_eq_ok.mp h
        cases flaw with
        | unpriced none => cases (parameter_isSome_iff hepsilon).mpr none
        | @negative name given amount hfind h =>
            have read : ∃ amount, parameter o name = .ok amount := by
              rcases amount with rfl | rfl
              · exact ⟨some eps, hepsilon⟩
              · exact ⟨del, hdelta⟩
            obtain ⟨n, hn, nonneg⟩ := parameter_total_iff.mp read given hfind
            exact absurd (h n hn) (Int.not_lt.mpr nonneg)
        | noInput none =>
            rw [none] at h
            cases h
  · intro flawless
    have read : ∀ name, name = epsilon ∨ name = delta →
        ∃ amount, parameter o name = .ok amount := by
      intro name amount
      refine parameter_total_iff.mpr fun given hfind => ?_
      by_contra none
      refine flawless (.negative amount hfind fun n hn => ?_)
      by_contra nonneg
      exact none ⟨n, hn, Int.not_lt.mp nonneg⟩
    obtain ⟨given, hepsilon⟩ := read epsilon (.inl rfl)
    obtain ⟨del, hdelta⟩ := read delta (.inr rfl)
    cases given with
    | none => exact absurd (.unpriced ((parameter_isSome_iff hepsilon).mp rfl)) flawless
    | some eps =>
        cases hinputs : o.inputs with
        | nil => exact absurd (.noInput hinputs) flawless
        | cons v rest =>
            exact ⟨_, Outcome.bind_eq_ok.mpr ⟨some eps, hepsilon, Outcome.bind_eq_ok.mpr
              ⟨eps, rfl, Outcome.bind_eq_ok.mpr ⟨del, hdelta, by rw [hinputs]; rfl⟩⟩⟩⟩

/-- A budget can be checked exactly when no mechanism has a flaw. -/
theorem check_total_iff {m : Module} (linked : m.Linked) (limit : Budget) :
    (∃ verdict, check m (.privacy limit) = .ok verdict) ↔
      ∀ o, o ∈ m.operations → o.operator = mechanism → ¬ Flaw o := by
  obtain ⟨states, hstates⟩ :=
    Worklist.solve_total analysis_joinLaws (analysis_totalOn m.occurrences)
  have operations : (FlowGraph.ofModule m).operations = m.operations := by
    rw [FlowGraph.ofModule, linked.flat.occurrences]
    exact FlowGraph.operations_eq_of_distinct linked.distinct
  have charged : Outcome.Decides (fun _ => True)
      (∀ done o, done ++ [o] <+: m.operations.filter (·.operator = mechanism) → ¬ Flaw o)
      (fun _ => True) (spent m) := by
    have solved : spent m =
        (m.operations.filter (·.operator = mechanism)).foldlM (charge states) {} := by
      rw [spent, ← operations]
      exact congrArg (· >>= _) hstates
    rw [solved]
    exact .foldlM (fun _ _ => True) trivial fun _ o _ _ _ => .of_ok_iff charge_total_iff
  have verdicts : Outcome.Decides (fun _ => True) _ (fun _ => True) (check m (.privacy limit)) :=
    charged.map fun _ _ => trivial
  rw [verdicts.ok_iff, Outcome.forall_mem_iff]
  simp

end Privacy

end TagFlow
