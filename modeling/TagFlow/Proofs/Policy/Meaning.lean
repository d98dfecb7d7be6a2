import TagFlow.Proofs.Label.Known
import TagFlow.Proofs.Policy.Outputs

/-! # What compiled rules mean

A compiled rule set says of every operation what the policy says of it, in terms of the
attributes of the operation and of the names of tags: a tag transform changes its first input
as its rule says if all preconditions are met, a merge that a built-in rule is applied to has
the secrecy of all inputs and the integrity of the direct ones, and every other output has
secrecy only.
-/

namespace TagFlow

open Compile TagNames

def Label.HasIntegrity (l : Label) (tag : Tag) : Prop :=
  ∃ secrecy integrity, l = .known secrecy integrity ∧ tag ∈ integrity

/-- The integrity of several labels taken together; that of no labels is empty. -/
def MergeKind.Collects (labels : List Label) (tag : Tag) : MergeKind → Prop
  | union => ∃ l, l ∈ labels ∧ l.HasIntegrity tag
  | intersect => labels ≠ [] ∧ ∀ l, l ∈ labels → l.HasIntegrity tag

def MergeKind.ruleName : MergeKind → String
  | union => Sql.unionRule
  | intersect => Sql.intersectRule

/-- The label is unknown if one of the inputs is. Otherwise it has the secrecy of all of them
and the given integrity. -/
def Label.Gathers (inputs : List Label) (integrity : Tag → Prop) (l : Label) : Prop :=
  .unknown ∈ inputs ∧ l = .unknown ∨
    .unknown ∉ inputs ∧ ∃ s i, l = .known s i ∧
      (∀ tag, tag ∈ s ↔ ∃ v, v ∈ inputs ∧ v.HasSecrecy tag) ∧ ∀ tag, tag ∈ i ↔ integrity tag

/-- A label with these tags as a rule with this action on this tag leaves it. -/
def RuleAction.effect (tag : Tag) (s i : TagSet) : RuleAction → Label
  | addConfidentiality => .known (s.insert tag) i
  | removeConfidentiality => .known (s.erase tag) i
  | addIntegrity => .known s (i.insert tag)

namespace Operation

/-- The attribute of the argument's name is the number of an input that carries the tag. -/
def Satisfies (names : List String) (o : Operation) (inputs : List Label) (p : Precondition) :
    Prop :=
  ∃ index v tag, (o.find? p.argument).bind Attribute.integer? = some index ∧
    0 ≤ index.toInt ∧ inputs[index.toInt.toNat]? = some v ∧
      number? names p.requiredTag = some tag ∧ v.HasIntegrity tag

/-- What the rule makes of the first input. -/
def Applies (names : List String) (o : Operation) (inputs : List Label) (rule : PolicyRule)
    (l : Label) : Prop :=
  inputs[0]? = some .unknown ∧ l = .unknown ∨
    ∃ s i tag, inputs[0]? = some (.known s i) ∧ number? names rule.tag = some tag ∧
      ((∀ p, p ∈ rule.preconditions → o.Satisfies names inputs p) ∧ l = rule.action.effect tag s i ∨
        ¬ (∀ p, p ∈ rule.preconditions → o.Satisfies names inputs p) ∧ l = .known s i)

def Invokes (o : Operation) (name : String) : Prop := o.find? Sql.ruleName = some (.text name)

/-- A tag transform that names a rule of the policy. -/
def Authored (o : Operation) (name : String) : Prop :=
  o.operator = Sql.tagTransform ∧ o.Invokes name ∧ Sql.isInternalRule name = false

/-- A merge that a tag transform of the module applies the built-in rule to. -/
def Directed (m : Module) (o : Operation) (kind : MergeKind) : Prop :=
  o.operator = Sql.merge ∧ ∃ q index, q ∈ m.operations ∧ q.operator = Sql.tagTransform ∧
    q.Invokes kind.ruleName ∧ q.inputs[0]? = some (.result o.id index)

end Operation

/-! ## Labels of merges -/

namespace Label

theorem hasIntegrity_known {s i : TagSet} {tag : Tag} :
    (known s i).HasIntegrity tag ↔ tag ∈ i := by
  simp [HasIntegrity]

theorem gathers_default (inputs : List Label) :
    Gathers inputs (fun _ => False) (default inputs) := by
  by_cases h : unknown ∈ inputs
  · exact .inl ⟨h, default_of_unknown h⟩
  · obtain ⟨s, hs, hmem⟩ := default_of_known h
    refine .inr ⟨h, s, .empty, hs, ?_, by simp⟩
    intro tag
    rw [hmem]
    constructor
    · rintro ⟨s', i', hin, htag⟩
      exact ⟨_, hin, s', i', rfl, htag⟩
    · rintro ⟨-, hin, s', i', rfl, htag⟩
      exact ⟨s', i', hin, htag⟩

/-- What has been merged so far stands for a first label. -/
theorem mergedIntegrity_collects {kind : MergeKind} {inputs labels : List Label}
    {positions : List Nat} (hat : List.Forall₂ (fun i l => inputs[i]? = some l) positions labels)
    {s acc : TagSet} {result : Option TagSet}
    (h : mergedIntegrity kind inputs positions (some acc) = .ok result) :
    ∃ tags, result = some tags ∧
      ∀ tag, tag ∈ tags ↔ kind.Collects (.known s acc :: labels) tag := by
  induction hat generalizing acc with
  | nil =>
      cases h
      refine ⟨acc, rfl, fun tag => ?_⟩
      cases kind <;> simp [MergeKind.Collects, hasIntegrity_known]
  | @cons index l positions labels hl _ ih =>
      simp only [mergedIntegrity, hl] at h
      obtain ⟨more, hmore, h⟩ := Outcome.bind_eq_ok.mp h
      cases l with
      | unknown => cases hmore
      | known s' i' =>
          cases hmore
          obtain ⟨tags, htags, hmem⟩ := ih h
          refine ⟨tags, htags, fun tag => ?_⟩
          rw [hmem]
          cases kind <;> simp [MergeKind.Collects, hasIntegrity_known, or_assoc, and_assoc]

theorem forall₂_take {inputs : List Label} {direct : Nat} (h : direct ≤ inputs.length) :
    List.Forall₂ (fun i l => inputs[i]? = some l) (List.range direct) (inputs.take direct) := by
  rw [List.forall₂_iff_get]
  refine ⟨by simp [h], ?_⟩
  intro i _ hi
  simp at hi
  simp

theorem gathers_merge {kind : MergeKind} {inputs : List Label} {direct : Nat} {l : Label}
    (hdirect : direct ≤ inputs.length)
    (h : merge kind (List.range direct) inputs (default inputs) = .ok l) :
    Gathers inputs (fun tag => kind.Collects (inputs.take direct) tag) l := by
  unfold merge at h
  rcases gathers_default inputs with ⟨hu, hdefault⟩ | ⟨hknown, s, i, hdefault, hsecrecy, -⟩
  · rw [hdefault] at h
    cases h
    exact .inl ⟨hu, rfl⟩
  · rw [if_neg (by rw [unknown_guard_iff, hdefault]; simp [hknown])] at h
    obtain ⟨merged, hmerged, h⟩ := Outcome.bind_eq_ok.mp h
    rw [hdefault] at h
    cases h
    refine .inr ⟨hknown, s, merged.getD .empty, rfl, hsecrecy, fun tag => ?_⟩
    have hat := forall₂_take hdirect
    generalize List.range direct = positions at hat hmerged
    generalize inputs.take direct = labels at hat ⊢
    cases hat with
    | nil =>
        cases hmerged
        cases kind <;> simp [MergeKind.Collects]
    | @cons index l _ _ hl rest =>
        simp only [mergedIntegrity, hl] at hmerged
        obtain ⟨tags, htags, hmerged⟩ := Outcome.bind_eq_ok.mp hmerged
        cases l with
        | unknown => cases htags
        | known s' i' =>
            cases htags
            obtain ⟨tags, rfl, hmem⟩ := mergedIntegrity_collects (s := s') rest hmerged
            exact hmem tag

end Label

/-! ## Preconditions -/

namespace Operation

variable {o : Operation} {roles : List (String × Nat)} {name : String}

theorem lookup_roles_iff (hroles : o.roles = .ok roles) (named : o.ruleName = .ok name)
    {argument : String} {position : Nat} :
    roles.lookup argument = some position ↔
      ∃ index, (o.find? argument).bind Attribute.integer? = some index ∧ 0 ≤ index.toInt ∧
        index.toInt.toNat = position := by
  have placed := roles_eq_ok.mp hroles
  rw [lookup_roles hroles]
  constructor
  · intro hmem
    obtain ⟨e, he, hname, hposition⟩ := Outcome.exists_left_of_forall₂ placed hmem
    obtain ⟨index, hindex, low, -, hnat⟩ := rolePosition_eq_ok.mp hposition
    have hfind : o.find? argument = some e.2 := by
      rw [show argument = e.1 from hname]
      exact (mem_roleEntries_iff.mp he).1
    exact ⟨index, by rw [hfind]; exact hindex, by omega, hnat⟩
  · rintro ⟨index, hindex, -, hnat⟩
    obtain ⟨given, hgiven, hindex⟩ := Option.bind_eq_some_iff.mp hindex
    have hne : argument ≠ Sql.ruleName := by
      rintro rfl
      rw [ruleName_eq_ok.mp named, Option.some.injEq] at hgiven
      subst hgiven
      cases hindex
    obtain ⟨role, hrole, hname, hposition⟩ :=
      Outcome.exists_right_of_forall₂ placed (mem_roleEntries_iff.mpr ⟨hgiven, hne⟩)
    obtain ⟨index', hindex', -, -, hnat'⟩ := rolePosition_eq_ok.mp hposition
    rw [hindex, Option.some.injEq] at hindex'
    have same : role = (argument, position) := by
      refine Prod.ext hname ?_
      rw [← hnat', ← hindex', hnat]
    exact same ▸ hrole

theorem met_iff_satisfies (hroles : o.roles = .ok roles) (named : o.ruleName = .ok name)
    {names : List String} {inputs : List Label} {p : Precondition} :
    Met roles names inputs p ↔ o.Satisfies names inputs p := by
  constructor
  · rintro ⟨position, s, i, tag, hposition, hinput, htag, hmem⟩
    obtain ⟨index, hindex, low, rfl⟩ := (lookup_roles_iff hroles named).mp hposition
    exact ⟨index, .known s i, tag, hindex, low, hinput, htag, s, i, rfl, hmem⟩
  · rintro ⟨index, -, tag, hindex, low, hinput, htag, s, i, rfl, hmem⟩
    have hposition := (lookup_roles_iff hroles named).mpr ⟨index, hindex, low, rfl⟩
    exact ⟨_, s, i, tag, hposition, hinput, htag, hmem⟩

end Operation

theorem RuleAction.effect_eq (action : RuleAction) (tag : Tag) (s i : TagSet) :
    (Label.known s i).change action.change tag = action.effect tag s i := by
  cases action <;> rfl

/-! ## Treatments -/

section

variable {rules : List PolicyRule} {m : Module} {o : Operation} {names : List String}
  {inputs : List Label} {l : Label}

theorem Treatment.Gives.applies {rule : PolicyRule} (ready : Compilable rules o rule)
    (h : Treatment.Gives names o inputs (.rule rule) l) : o.Applies names inputs rule l := by
  obtain ⟨-, named, -, roles, hroles, -⟩ := ready
  have fires : Treatment.Fires names o inputs rule ↔
      ∀ p, p ∈ rule.preconditions → o.Satisfies names inputs p := by
    simp only [Treatment.Fires, hroles, Except.ok.injEq, exists_eq_left',
      Operation.met_iff_satisfies hroles named]
  obtain ⟨v, tag, hv, htag, hl⟩ := h
  cases v with
  | unknown =>
      refine .inl ⟨hv, ?_⟩
      rcases hl with ⟨-, rfl⟩ | ⟨-, rfl⟩
      · exact Label.change_unknown _ _
      · rfl
  | known s i =>
      refine .inr ⟨s, i, tag, hv, htag, ?_⟩
      rw [fires, RuleAction.effect_eq] at hl
      exact hl

theorem Treatment.Assigned.unique (askable : Askable rules m) {t t' : Treatment}
    (h : Treatment.Assigned rules m o t) (h' : Treatment.Assigned rules m o t') : t = t' := by
  cases h with
  | asked hq asks =>
      cases h' with
      | asked hq' asks' =>
          have same := askable.apart _ _ _ _ _ _ hq hq' asks asks' rfl
          subst same
          exact (asks.unique asks').2
      | plain unasked => exact absurd asks (unasked _ hq _)
  | plain unasked =>
      cases h' with
      | asked hq asks => exact absurd asks (unasked _ hq _)
      | plain => rfl

theorem Askable.authored (askable : Askable rules m) (ho : o ∈ m.operations) {name : String}
    (authored : o.Authored name) :
    ∃ rule, rule.name = name ∧ Compilable rules o rule := by
  obtain ⟨transform, invokes, external⟩ := authored
  have named := Operation.ruleName_eq_ok.mpr invokes
  obtain ⟨target, t, asks⟩ := askable.asked o ho transform
  cases asks with
  | authored _ ready =>
      have hname := ready.2.1
      rw [named, Except.ok.injEq] at hname
      exact ⟨_, hname.symm, ready⟩
  | internal _ named' builtIn =>
      rw [named, Except.ok.injEq] at named'
      rw [← named', external] at builtIn
      cases builtIn

theorem Askable.directed (askable : Askable rules m) (distinct : (m.operations.map (·.id)).Nodup)
    (ho : o ∈ m.operations) {kind : MergeKind} (directed : o.Directed m kind) :
    ∃ direct, o.controlStart = .ok direct ∧ Treatment.Assigned rules m o (.merge kind direct) := by
  obtain ⟨-, q, index, hq, transform, invokes, hin⟩ := directed
  have named := Operation.ruleName_eq_ok.mpr invokes
  obtain ⟨target, t, asks⟩ := askable.asked q hq transform
  have builtIn : Sql.isInternalRule kind.ruleName = true := by cases kind <;> decide
  cases asks with
  | authored _ ready =>
      have hname := ready.2.1
      rw [named, Except.ok.injEq] at hname
      rw [hname, ready.2.2.1] at builtIn
      cases builtIn
  | @internal _ name direct _ named' _ reads start =>
      obtain ⟨id, index', hinputs, hfind, -⟩ := mergeOperand_eq_ok.mp reads
      rw [hinputs] at hin
      cases hin
      rw [(Module.findOperation?_eq_some_iff distinct).mpr ⟨ho, rfl⟩, Option.some.injEq] at hfind
      subst hfind
      rw [named, Except.ok.injEq] at named'
      have same : (if name = Sql.unionRule then MergeKind.union else .intersect) = kind := by
        rw [← named']
        cases kind <;> rfl
      exact ⟨direct, start, .asked hq
        (same ▸ .internal transform (named' ▸ named) (named' ▸ builtIn) reads start)⟩

theorem Treatment.Assigned.plain_of_neither (distinct : (m.operations.map (·.id)).Nodup)
    {t : Treatment} (h : Treatment.Assigned rules m o t) (unnamed : ∀ name, ¬ o.Authored name)
    (undirected : ∀ kind, ¬ o.Directed m kind) : t = .plain := by
  cases h with
  | plain => rfl
  | asked hq asks =>
      cases asks with
      | authored transform ready =>
          exact absurd ⟨transform, Operation.ruleName_eq_ok.mp ready.2.1, ready.2.2.1⟩ (unnamed _)
      | @internal _ name _ transform named builtIn reads _ =>
          obtain ⟨id, index, hinputs, hfind, hop⟩ := mergeOperand_eq_ok.mp reads
          have hid := ((Module.findOperation?_eq_some_iff distinct).mp hfind).2
          have hkind : ∃ kind : MergeKind, name = kind.ruleName := by
            rcases (by simpa [Sql.isInternalRule] using builtIn :
              name = Sql.unionRule ∨ name = Sql.intersectRule) with e | e
            · exact ⟨.union, e⟩
            · exact ⟨.intersect, e⟩
          obtain ⟨kind, rfl⟩ := hkind
          exact absurd ⟨hop, _, index, hq, transform, Operation.ruleName_eq_ok.mp named,
            by rw [hinputs, hid]; rfl⟩ (undirected kind)

/-! ## Whole rule sets -/

/-- Compiled rules give every output the label that the policy says: the first output of a tag
transform with an authored rule, the first output of a merge that a built-in rule is applied
to, and all other outputs. -/
theorem transfer_keeps_meaning {seeds : List String} {r : RuleSet}
    (distinct : (m.operations.map (·.id)).Nodup) (h : compile rules m seeds = .ok r)
    (ho : o ∈ m.operations) (reads : o.operator = Sql.tagTransform → 0 < o.inputs.length)
    (writes : ∀ action, r.actions.find? o.id = some action → 0 < o.outputCount)
    (hlen : inputs.length = o.inputs.length) :
    ∃ outs, r.transfer o inputs = .ok outs ∧ outs.length = o.outputCount ∧
      (∀ name, o.Authored name → ∃ rule l, rule ∈ rules ∧ rule.name = name ∧
        (∀ other, other ∈ rules → other.name = name → other = rule) ∧ outs[0]? = some l ∧
          o.Applies r.tagNames inputs rule l) ∧
      (∀ kind, o.Directed m kind → ∃ start l, o.find? Sql.controlStart = some (.integer start) ∧
        0 ≤ start.toInt ∧ start.toInt ≤ o.inputs.length ∧ outs[0]? = some l ∧
          Label.Gathers inputs
            (fun tag => kind.Collects (inputs.take start.toInt.toNat) tag) l) ∧
      ∀ index l, outs[index]? = some l →
        0 < index ∨ (∀ name, ¬ o.Authored name) ∧ (∀ kind, ¬ o.Directed m kind) →
          Label.Gathers inputs (fun _ => False) l := by
  obtain ⟨hrules, -, askable, realizes⟩ := compile_eq_ok distinct h
  obtain ⟨t, assigned⟩ := Treatment.exists_assigned rules m o
  have treats := realizes.treats o ho t assigned
  have suits : t.Suits o := by
    cases assigned with
    | plain => trivial
    | asked _ asks =>
        obtain ⟨action, haction⟩ := treats.isSome asks.special
        have hout := writes action haction
        cases asks with
        | authored transform _ => exact ⟨hout, reads transform⟩
        | internal => exact hout
  obtain ⟨first, gives, houts⟩ := treats.transfer suits hlen
  have special : t ≠ .plain →
      ((List.replicate o.outputCount (Label.default inputs)).set 0 first)[0]? = some first := by
    intro ht
    obtain ⟨action, haction⟩ := treats.isSome ht
    exact getElem?_first.mpr ⟨writes action haction, rfl⟩
  refine ⟨_, houts, by simp, ?_, ?_, ?_⟩
  · intro name authored
    obtain ⟨rule, hname, ready⟩ := askable.authored ho authored
    have ht := assigned.unique askable (.asked ho (.authored authored.1 ready))
    subst ht
    have hrule : rule ∈ rules := List.mem_of_find?_eq_some ready.1
    refine ⟨rule, first, hrule, hname, ?_, special Treatment.noConfusion, gives.applies ready⟩
    intro other hother e
    exact List.inj_on_of_nodup_map hrules hother hrule (e.trans hname.symm)
  · intro kind directed
    obtain ⟨direct, hstart, assigned'⟩ := askable.directed distinct ho directed
    have ht := assigned.unique askable assigned'
    subst ht
    have hdirect : direct ≤ inputs.length := hlen ▸ Operation.controlStart_le hstart
    obtain ⟨start, hfind, low, high, rfl⟩ := Operation.controlStart_eq_ok.mp hstart
    exact ⟨start, first, hfind, low, high, special Treatment.noConfusion,
      Label.gathers_merge hdirect gives⟩
  · intro index l hl other
    obtain ⟨-, rfl⟩ := getElem?_first.mp hl
    by_cases hindex : index = 0
    · rw [if_pos hindex]
      have neither := other.resolve_left (by omega)
      have ht := assigned.plain_of_neither distinct neither.1 neither.2
      subst ht
      rw [show first = Label.default inputs from gives]
      exact Label.gathers_default inputs
    · rw [if_neg hindex]
      exact Label.gathers_default inputs

end

/-! ## A vetted release -/

namespace Vetted

def gather : Operation :=
  .standalone 2 Sql.merge [(Sql.controlStart, .integer 1)] [.result 1 0, .result 0 0]

def keep : Operation :=
  .standalone 3 Sql.tagTransform [(Sql.ruleName, .text Sql.unionRule)] [.result 2 0]

/-- The reviewer is the merge, whose integrity the built-in rule keeps. -/
def release : Operation :=
  .standalone 4 Sql.tagTransform
    [(Sql.ruleName, .text "release"), ("reviewer", .integer 1)] [.result 0 0, .result 2 0]

def root : Module :=
  ⟨0, [⟨0, none, .empty, .empty, .empty,
    [.standalone 0 Sql.literal [] [],
      .standalone 1 Sql.tagTransform [(Sql.ruleName, .text "review")] [.result 0 0],
      gather, keep, release]⟩]⟩

def rule : PolicyRule :=
  ⟨"release", .removeConfidentiality, "secret", [⟨"reviewer", "reviewed"⟩]⟩

def rules : List PolicyRule := [⟨"review", .addIntegrity, "reviewed", []⟩, rule]

/-- The release of a secret with a reviewed input, and the merge with a reviewed direct input. -/
theorem transfer_keeps_meaning_root :
    (root.operations.map (·.id)).Nodup ∧ ∃ r, compile rules root ["secret"] = .ok r ∧
      (∃ outs l, r.transfer release [.ofTags [0] [], .ofTags [] [1]] = .ok outs ∧
        outs[0]? = some l ∧ release.Applies r.tagNames [.ofTags [0] [], .ofTags [] [1]] rule l) ∧
      gather.Directed root .union ∧
        ∃ outs l, r.transfer gather [.ofTags [] [1], .ofTags [0] []] = .ok outs ∧
          outs[0]? = some l ∧ Label.Gathers [.ofTags [] [1], .ofTags [0] []]
            (fun tag => MergeKind.union.Collects [.ofTags [] [1]] tag) l := by
  have distinct : (root.operations.map (·.id)).Nodup := by decide
  have released : release.Authored "release" := ⟨rfl, rfl, rfl⟩
  have directed : gather.Directed root .union :=
    ⟨rfl, keep, 0, List.mem_of_getElem? (i := 3) rfl, rfl, rfl, rfl⟩
  obtain ⟨r, hr⟩ : ∃ r, compile rules root ["secret"] = .ok r := ⟨_, rfl⟩
  have inputs : [Label.ofTags [0] [], .ofTags [] [1]].length = release.inputs.length := rfl
  have sources : [Label.ofTags [] [1], .ofTags [0] []].length = gather.inputs.length := rfl
  refine ⟨distinct, r, hr, ?_, directed, ?_⟩
  · obtain ⟨outs, houts, -, authored, -⟩ := transfer_keeps_meaning distinct hr
      (List.mem_of_getElem? (i := 4) rfl) (fun _ => by decide) (fun _ _ => by decide) inputs
    obtain ⟨found, l, -, -, only, hl, applies⟩ := authored "release" released
    have same : rule = found := only rule (by decide) rfl
    exact ⟨outs, l, houts, hl, same ▸ applies⟩
  · obtain ⟨outs, houts, -, -, merged, -⟩ := transfer_keeps_meaning distinct hr
      (List.mem_of_getElem? (i := 2) rfl) (fun _ => by decide) (fun _ _ => by decide) sources
    obtain ⟨start, l, hstart, -, -, hl, gathers⟩ := merged .union directed
    cases hstart
    exact ⟨outs, l, houts, hl, gathers⟩

end Vetted

end TagFlow
