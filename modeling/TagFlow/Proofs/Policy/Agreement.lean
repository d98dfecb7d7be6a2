import TagFlow.Proofs.Flow.PostFixpoint
import TagFlow.Proofs.Policy.RescanAcyclic
import TagFlow.Proofs.Policy.Stricter
import TagFlow.Proofs.Policy.Treatment

/-! # The two checks of a SQL policy

Labels are joined over a worklist of compiled rules; rescans replace marks by what the rules
of the book say. Over a SQL module without loops the labels are stricter than the marks: the
labels that are returned are above what each operation asks for, the marks are exactly that,
and one operation keeps its label stricter than its marks. So what a rescan rejects, the
labels reject too.
-/

namespace TagFlow

open Compile Rescan TagNames Worklist

namespace Sql

/-- A tag transform applies an authored rule: its roles are the arguments of the rule's
preconditions. -/
structure Applies (rules : List PolicyRule) (o : Operation) (rule : PolicyRule) : Prop where
  value : o.inputs ≠ []
  mem : rule ∈ rules
  name : o.ruleName = .ok rule.name
  authored : isInternalRule rule.name = false
  roles : ∃ roles, o.roles = .ok roles ∧
    (∀ role, role ∈ roles → role.1 ∈ rule.preconditions.map (·.argument)) ∧
    ∀ p, p ∈ rule.preconditions → p.argument ∈ roles.map (·.1)

/-- A module of SQL operations with one output each, without implementations and loops, all
of whose tag transforms apply one of the rules. -/
structure Obeys (rules : List PolicyRule) (m : Module) : Prop where
  linked : m.Linked
  acyclic : m.Acyclic
  operators : ∀ o, o ∈ m.operations → o.operator ∈ Sql.operators
  single : ∀ o, o ∈ m.operations → o.outputCount = 1
  transforms : ∀ o, o ∈ m.operations → o.operator = tagTransform → ∃ rule, Applies rules o rule

variable {rules : List PolicyRule} {o : Operation} {rule : PolicyRule} {m : Module}
  {book : RuleBook}

theorem Applies.compilable (h : Applies rules o rule) (distinct : (rules.map (·.name)).Nodup) :
    Compilable rules o rule := by
  obtain ⟨roles, hroles, -, hgiven⟩ := h.roles
  refine ⟨Outcome.find?_key_of_mem distinct h.mem, h.name, h.authored, roles, hroles, ?_⟩
  intro p hp
  obtain ⟨role, hrole, hname⟩ := List.mem_map.mp (hgiven p hp)
  exact ⟨role.2, (Operation.lookup_roles hroles).mpr (hname ▸ hrole)⟩

theorem Applies.names (h : Applies rules o rule) (holds : book.Holds rules) :
    ∃ entry values, Rescan.Names book o entry values ∧
      RuleBook.Numbers book.tagNames entry rule := by
  obtain ⟨roles, hroles, -⟩ := h.roles
  obtain ⟨values, hvalues, -⟩ := Operation.roleValues_total hroles
  obtain ⟨entry, hentry, hnumbers⟩ := holds.entry rule h.mem
  exact ⟨entry, values, ⟨⟨rule.name, h.name, h.authored, hentry⟩, hvalues⟩, hnumbers⟩

theorem Applies.exists_value (h : Applies rules o rule) : ∃ v, o.inputs[0]? = some v := by
  have hpos : 0 < o.inputs.length := List.length_pos_iff.mpr h.value
  exact ⟨o.inputs[0], List.getElem?_eq_getElem hpos⟩

theorem Obeys.accepts (h : Obeys rules m) (holds : book.Holds rules) :
    ∀ o, o ∈ m.operations → Accepts book o := by
  intro o ho hop
  obtain ⟨rule, happlies⟩ := h.transforms o ho hop
  obtain ⟨v, hv⟩ := happlies.exists_value
  obtain ⟨entry, values, hnames, -⟩ := happlies.names holds
  exact ⟨v, transformedValue_eq_ok.mpr hv, .inr ⟨entry, values, hnames⟩⟩

end Sql

/-! ## One operation -/

section

variable {rules : List PolicyRule} {m : Module} {r : RuleSet} {book : RuleBook} {marks : MarkMap}
  {o : Operation} {label : Value → Label}

/-- What compiling the rules for a module gives: only transforms have actions, and these have
the steps of their rules. -/
structure Compiles (rules : List PolicyRule) (m : Module) (r : RuleSet) : Prop where
  unmarked : ∀ o, o ∈ m.operations → o.operator ≠ Sql.tagTransform → r.actions.find? o.id = none
  compiled : ∀ o rule, o ∈ m.operations → o.operator = Sql.tagTransform →
    Sql.Applies rules o rule → Compiled r o rule

theorem stricter_unmarked (unmarked : r.actions.find? o.id = none) (single : o.outputCount = 1)
    (h : ∀ v, v ∈ o.inputs → Stricter r book (label v) (marksOf marks v)) {secrecy : TagSet}
    (hsecrecy : ∀ tag, tag ∈ secrecy → ∃ v, v ∈ o.inputs ∧ tag ∈ secrecyOf marks v) :
    ∃ l, r.transfer o (o.inputs.map label) = .ok [l] ∧
      Stricter r book l { secrecy := secrecy } := by
  refine ⟨Label.default (o.inputs.map label), ?_, stricter_default h hsecrecy⟩
  rw [RuleSet.transfer_unmarked unmarked, single]
  rfl

theorem stricter_transform {rule : PolicyRule} (holds : book.Holds rules)
    (plain : rule.action = .addConfidentiality → rule.preconditions = [])
    (compiled : Compiled r o rule) (single : o.outputCount = 1)
    (happlies : Sql.Applies rules o rule)
    (h : ∀ v, v ∈ o.inputs → Stricter r book (label v) (marksOf marks v)) :
    ∃ l new, r.transfer o (o.inputs.map label) = .ok [l] ∧
      transformMarks book marks o = .ok new ∧ Stricter r book l new := by
  obtain ⟨v, hv⟩ := happlies.exists_value
  obtain ⟨entry, values, hnames, numbers⟩ := happlies.names holds
  obtain ⟨roles, hroles, hknown, -⟩ := happlies.roles
  have hlabel : (o.inputs.map label)[0]? = some (label v) := by
    rw [List.getElem?_map, hv]
    rfl
  obtain ⟨roles', tag, met, hroles', htag, hmet, htransfer⟩ :=
    compiled.transfer single (List.length_map _) hlabel
  rw [hroles, Except.ok.injEq] at hroles'
  subst hroles'
  refine ⟨_, _, htransfer, transformMarks_of_names (transformedValue_eq_ok.mpr hv) hnames, ?_⟩
  apply stricter_ruleMarks holds.nodup numbers (h v (List.mem_of_getElem? hv)) htag
  · intro hfires
    exact all_filled_of_met holds.nodup numbers hroles hnames.roles hknown h (hmet.mp hfires)
  · intro hadd
    rw [hmet, plain hadd]
    simp

/-- One operation keeps its label stricter than its marks. -/
theorem stricter_transfer (obeys : Sql.Obeys rules m) (holds : book.Holds rules)
    (plain : ∀ rule, rule ∈ rules → rule.action = .addConfidentiality → rule.preconditions = [])
    (compiles : Compiles rules m r) (ho : o ∈ m.operations)
    (h : ∀ v, v ∈ o.inputs → Stricter r book (label v) (marksOf marks v)) :
    ∃ l new, r.transfer o (o.inputs.map label) = .ok [l] ∧
      transfer book marks o = .ok (some new) ∧ Stricter r book l new := by
  have single := obeys.single o ho
  obtain ⟨result, htransfer⟩ := transfer_total (obeys.accepts holds o ho) marks
  cases result with
  | none => exact absurd (obeys.operators o ho) (transfer_eq_none htransfer)
  | some new =>
      rcases transfer_cases htransfer with ⟨hop, rfl⟩ | ⟨hop, hmarks⟩ | ⟨hop, rfl⟩
      · have unmarked := compiles.unmarked o ho (by rw [hop]; decide)
        obtain ⟨l, hl, hstricter⟩ := stricter_unmarked unmarked single h
          fun tag htag => mem_secrecy_mergeMarks.mp htag
        exact ⟨l, _, hl, htransfer, hstricter⟩
      · obtain ⟨rule, happlies⟩ := obeys.transforms o ho hop
        obtain ⟨l, new', hl, hmarks', hstricter⟩ := stricter_transform holds
          (plain rule happlies.mem) (compiles.compiled o rule ho hop happlies) single happlies h
        rw [hmarks, Except.ok.injEq] at hmarks'
        subst hmarks'
        exact ⟨l, _, hl, htransfer, hstricter⟩
      · have hne : o.operator ≠ Sql.tagTransform := by
          rcases hop with hop | hop <;> rw [hop] <;> decide
        obtain ⟨l, hl, hstricter⟩ := stricter_unmarked (compiles.unmarked o ho hne) single h
          fun tag htag => absurd htag (OrdSet.not_mem_empty tag)
        exact ⟨l, _, hl, htransfer, hstricter⟩

theorem Compiles.fits (compiles : Compiles rules m r) (obeys : Sql.Obeys rules m) :
    ∀ o, o ∈ m.operations → r.Fits o := by
  intro o ho
  by_cases hop : o.operator = Sql.tagTransform
  · obtain ⟨rule, happlies⟩ := obeys.transforms o ho hop
    exact (compiles.compiled o rule ho hop happlies).fits (by rw [obeys.single o ho]; decide)
      (List.length_pos_iff.mpr happlies.value)
  · intro action haction
    rw [compiles.unmarked o ho hop] at haction
    cases haction

/-! ## The whole module -/

theorem stricter_inputs (obeys : Sql.Obeys rules m) {states : States Label}
    (post : PostFixpoint r.analysis m.operations states) (placed : Placed m marks)
    (ho : o ∈ m.operations)
    (before : ∀ p, p ∈ m.operations → m.Feeds p.id o.id →
      Stricter r book (stateOf r.analysis states (.default p.id)) (marksOf marks (.default p.id))) :
    ∀ v, v ∈ o.inputs → Stricter r book (stateOf r.analysis states v) (marksOf marks v) := by
  intro v hv
  cases hr : v.isResult with
  | false =>
      have habsent : marks.find? v = none := by
        cases hf : marks.find? v with
        | none => rfl
        | some new =>
            obtain ⟨p, -, -, rfl⟩ := placed v new hf
            cases hr
      rw [stateOf_of_find? (post.outside o ho v hv hr)]
      exact stricter_of_absent habsent
  | true =>
      obtain ⟨producer, index, rfl⟩ := Value.isResult_iff.mp hr
      obtain ⟨p, hp, rfl, hindex⟩ := obeys.linked.reads o ho producer index hv
      rw [obeys.single p hp, Nat.lt_one_iff] at hindex
      subst hindex
      exact before p hp (Module.feeds_of_reads ho hv)

theorem stricter_result (obeys : Sql.Obeys rules m) (holds : book.Holds rules)
    (plain : ∀ rule, rule ∈ rules → rule.action = .addConfidentiality → rule.preconditions = [])
    (compiles : Compiles rules m r) {states : States Label}
    (post : PostFixpoint r.analysis m.operations states) (ho : o ∈ m.operations)
    (solved : Solved book marks o)
    (inputs : ∀ v, v ∈ o.inputs → Stricter r book (stateOf r.analysis states v) (marksOf marks v)) :
    Stricter r book (stateOf r.analysis states (.default o.id))
      (marksOf marks (.default o.id)) := by
  obtain ⟨l, new, hl, hnew, hstricter⟩ := stricter_transfer obeys holds plain compiles ho inputs
  obtain ⟨outs, houts, -, hjoin⟩ := post.outputs o ho
  rw [show r.analysis.transfer o _ = .ok [l] from hl, Except.ok.injEq] at houts
  subst houts
  have hmarks : marksOf marks (.default o.id) = new := by
    rcases solved with hnone | ⟨new', hnew', hfind⟩
    · rw [hnew] at hnone
      cases hnone
    · rw [hnew, Except.ok.injEq, Option.some.injEq] at hnew'
      rw [hnew']
      exact marksOf_of_find? hfind
  rw [hmarks]
  exact hstricter.of_join (hjoin 0 l rfl)

/-- Along the dataflow the labels of all results are stricter than the marks. -/
theorem stricter_results (obeys : Sql.Obeys rules m) (holds : book.Holds rules)
    (plain : ∀ rule, rule ∈ rules → rule.action = .addConfidentiality → rule.preconditions = [])
    (compiles : Compiles rules m r) {states : States Label}
    (post : PostFixpoint r.analysis m.operations states) (placed : Placed m marks)
    (solved : ∀ o, o ∈ m.operations → Solved book marks o) :
    ∀ o, o ∈ m.operations →
      Stricter r book (stateOf r.analysis states (.default o.id))
        (marksOf marks (.default o.id)) := by
  suffices along : ∀ id o, o ∈ m.operations → o.id = id →
      Stricter r book (stateOf r.analysis states (.default o.id))
        (marksOf marks (.default o.id)) from fun o ho => along o.id o ho rfl
  intro id
  induction id using obeys.acyclic.wellFounded.induction with
  | _ id ih =>
      intro o ho hid
      apply stricter_result obeys holds plain compiles post ho (solved o ho)
      apply stricter_inputs obeys post placed ho
      intro p hp hfeeds
      exact ih p.id (hid ▸ hfeeds) p hp rfl

end

/-- Over a SQL module without loops whose transforms apply the rules, where no rule that adds
secrecy has preconditions, both checks run to their end, and for whatever seed tags the label
of every result is known and has every secrecy tag of the rescan, by name. So the labels
reject what the rescan rejects. -/
theorem labels_cover_rescan {rules : List PolicyRule} {m : Module} {seeds : List String}
    (obeys : Sql.Obeys rules m) (distinct : (rules.map (·.name)).Nodup)
    (plain : ∀ rule, rule ∈ rules → rule.action = .addConfidentiality → rule.preconditions = [])
    (hseeds : seeds.Nodup) :
    ∃ r states book f, compile rules m seeds = .ok r ∧ r.labels m = .ok states ∧
      RuleBook.ofRules rules = .ok book ∧ fixpoint book m = .ok (some f) ∧
      (∀ o, o ∈ m.operations → ∃ secrecy integrity,
        states.find? (.default o.id) = some (.known secrecy integrity) ∧
          Covers book.tagNames r.tagNames (secrecyOf f.marks (.default o.id)) secrecy) ∧
      ∀ egress, Sql.output ∈ egress → Rescan.check book m = .ok (some false) →
        Egress.check r egress m = .ok false := by
  obtain ⟨r, hr, -, unmarked, compiled⟩ := compile_total distinct hseeds obeys.linked.distinct (by
    intro o ho hop
    obtain ⟨rule, happlies⟩ := obeys.transforms o ho hop
    exact ⟨rule, happlies.compilable distinct⟩)
  have compiles : Compiles rules m r :=
    ⟨unmarked, fun o rule ho hop happlies => compiled o rule ho hop (happlies.compilable distinct)⟩
  obtain ⟨book, hbook, holds⟩ := RuleBook.ofRules_total distinct
  obtain ⟨f, hf⟩ :=
    fixpoint_total_of_acyclic obeys.linked.distinct obeys.acyclic (obeys.accepts holds)
  have hocc : m.occurrences = m.operations := obeys.linked.flat.occurrences
  have hids : (m.occurrences.map (·.id)).Nodup := hocc ▸ obeys.linked.distinct
  obtain ⟨states, hstates, post⟩ := solve_postFixpoint r.analysis_joinLaws r.analysis_ranked
    r.analysis_strict hids (RuleSet.analysis_totalOn (hocc ▸ compiles.fits obeys))
  rw [hocc] at post
  have placed := run_placed hf
  have results := stricter_results obeys holds plain compiles post placed (run_solved hf)
  refine ⟨r, states, book, f, hr, hstates, hbook, hf, ?_, ?_⟩
  · intro o ho
    obtain ⟨s, i, hlabel, hsecrecy, -⟩ := results o ho
    exact ⟨s, i, RuleSet.find?_of_known hlabel, hsecrecy⟩
  · intro egress hegress hcheck
    have fails : complies m f = false := by
      rw [Rescan.check, hf] at hcheck
      simpa using hcheck
    obtain ⟨out, hout, hop, v, hv, tag, htag⟩ := complies_eq_false_iff.mp fails
    obtain ⟨s, i, hlabel, hsecrecy, -⟩ :=
      stricter_inputs obeys post placed hout (fun p hp _ => results p hp) v hv
    obtain ⟨name, -, tag', htag', -⟩ := hsecrecy tag htag
    have released : Egress.Releases egress m v := ⟨out, hocc ▸ hout, hop ▸ hegress, hv⟩
    exact RuleSet.check_eq_false hids hstates released ⟨s, i, hlabel, htag'⟩

/-! ## A review that gets lost -/

namespace Review

/-- The secret may be released on a reviewed value, but the review goes through a merge, which
drops it. The output comes first and reads what is declared after it. -/
def root : Module :=
  ⟨0, [⟨0, none, .empty, .empty, .empty,
    [.standalone 0 Sql.output [] [.result 4 0],
      .standalone 1 Sql.literal [] [],
      .standalone 2 Sql.tagTransform [(Sql.ruleName, .text "classify")] [.result 1 0],
      .standalone 3 Sql.tagTransform [(Sql.ruleName, .text "vouch")] [.argument 0 0],
      .standalone 4 Sql.tagTransform [(Sql.ruleName, .text "release"), ("review", .integer 1)]
        [.result 2 0, .result 5 0],
      .standalone 5 Sql.merge [(Sql.controlStart, .integer 1)] [.result 3 0]]⟩]⟩

def rules : List PolicyRule :=
  [⟨"classify", .addConfidentiality, "secret", []⟩, ⟨"vouch", .addIntegrity, "reviewed", []⟩,
    ⟨"release", .removeConfidentiality, "secret", [⟨"review", "reviewed"⟩]⟩]

theorem applies : ∀ o, o ∈ root.operations → o.operator = Sql.tagTransform →
    ∃ rule, Sql.Applies rules o rule := by
  intro o ho hop
  have found : ∀ o, o ∈ root.operations → o.operator = Sql.tagTransform →
      ∃ rule, rule ∈ rules ∧ o.inputs ≠ [] ∧ o.ruleName = .ok rule.name ∧
        Sql.isInternalRule rule.name = false ∧ ∃ roles, o.roles = .ok roles ∧
          (∀ role, role ∈ roles → role.1 ∈ rule.preconditions.map (·.argument)) ∧
          ∀ p, p ∈ rule.preconditions → p.argument ∈ roles.map (·.1) := by
    decide +kernel
  obtain ⟨rule, hmem, hvalue, hname, hauthored, hroles⟩ := found o ho hop
  exact ⟨rule, hvalue, hmem, hname, hauthored, hroles⟩

/-- Operations in an order in which each comes after those it reads. -/
def rank (id : OperationId) : Nat := [4, 0, 1, 0, 3, 2].getD id 0

theorem linked_acyclic : root.Linked ∧ root.Acyclic :=
  Module.linked_acyclic_of_rank rank (by decide) (by unfold Module.Flat; decide) (by decide)

theorem obeys : Sql.Obeys rules root :=
  ⟨linked_acyclic.1, linked_acyclic.2, by decide, by decide, applies⟩

theorem labels_cover_rescan_root :
    Sql.Obeys rules root ∧ (rules.map (·.name)).Nodup ∧
      (∀ rule, rule ∈ rules → rule.action = .addConfidentiality → rule.preconditions = []) ∧
      ["reviewed", "draft"].Nodup ∧
      ∃ r states book f, compile rules root ["reviewed", "draft"] = .ok r ∧
        r.labels root = .ok states ∧ RuleBook.ofRules rules = .ok book ∧
        fixpoint book root = .ok (some f) ∧
        (∀ o, o ∈ root.operations → ∃ secrecy integrity,
          states.find? (.default o.id) = some (.known secrecy integrity) ∧
            Covers book.tagNames r.tagNames (secrecyOf f.marks (.default o.id)) secrecy) ∧
        Rescan.check book root = .ok (some false) ∧
        Egress.check r [Sql.output] root = .ok false := by
  have distinct : (rules.map (·.name)).Nodup := by decide
  have plain : ∀ rule, rule ∈ rules → rule.action = .addConfidentiality →
      rule.preconditions = [] := by decide
  have seeds : ["reviewed", "draft"].Nodup := by decide
  obtain ⟨r, states, book, f, hr, hstates, hbook, hf, covers, rejects⟩ :=
    labels_cover_rescan obeys distinct plain seeds
  have rejected : ∃ book, RuleBook.ofRules rules = .ok book ∧
      Rescan.check book root = .ok (some false) := by decide +kernel
  obtain ⟨book', hbook', hcheck⟩ := rejected
  rw [hbook, Except.ok.injEq] at hbook'
  subst hbook'
  exact ⟨obeys, distinct, plain, seeds, r, states, book, f, hr, hstates, hbook, hf, covers, hcheck,
    rejects [Sql.output] (by decide) hcheck⟩

end Review

end TagFlow
