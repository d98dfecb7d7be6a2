import TagFlow.Proofs.Policy.Rescan
import TagFlow.Proofs.Policy.RuleBook

/-! # What a rescan asks before a rule acts

A tag transform that names a rule looks at its own attributes: each of them has to be an
argument of the rule, and the input it designates has to carry the tags that the rule
requires of the argument. It does not look for arguments that have no attribute. So a rule
acts with all its preconditions met exactly where every argument is assigned, and acts
without asking where none is.
-/

namespace TagFlow

open TagNames

namespace Rescan

/-- The argument of the precondition designates an input that carries the required tag. -/
def Meets (names : List String) (marks : MarkMap) (o : Operation) (p : Precondition) : Prop :=
  ∃ v tag, o.Designates p.argument v ∧ number? names p.requiredTag = some tag ∧
    tag ∈ integrityOf marks v

/-- The marks of the value are as a rule with this action on this tag leaves them. -/
def Treated (marks : MarkMap) (v : Value) (tag : Tag) : RuleAction → Prop
  | .addConfidentiality => tag ∈ secrecyOf marks v
  | .removeConfidentiality => tag ∉ secrecyOf marks v
  | .addIntegrity => tag ∈ integrityOf marks v

variable {book : RuleBook} {marks : MarkMap} {o : Operation} {entry : RuleBook.Entry}
  {rule : PolicyRule}

theorem filled_iff {names : List String}
    (required : RuleBook.Collects names entry.required rule.preconditions) {argument : String}
    {v : Value} :
    filled entry marks (argument, v) = true ↔
      (∃ p, p ∈ rule.preconditions ∧ p.argument = argument) ∧
        ∀ p, p ∈ rule.preconditions → p.argument = argument →
          ∃ tag, number? names p.requiredTag = some tag ∧ tag ∈ integrityOf marks v := by
  cases hrequired : entry.required.find? argument with
  | none =>
      have unknown := (required.absent argument).mp hrequired
      have empty : filled entry marks (argument, v) = false := by
        unfold filled
        simp only [hrequired]
        cases marks.find? v <;> rfl
      simp only [empty, Bool.false_eq_true, false_iff, not_and]
      intro ⟨p, hp, hargument⟩
      exact absurd hargument (unknown p hp)
  | some tags =>
      have asked := required.mem argument tags hrequired
      constructor
      · intro h
        cases hpresent : marks.find? v with
        | none => simp [filled, hpresent] at h
        | some present =>
            simp only [filled, hpresent, hrequired, OrdSet.subset_iff] at h
            constructor
            · by_contra unasked
              have habsent : entry.required.find? argument = none :=
                (required.absent argument).mpr fun p hp e => unasked ⟨p, hp, e⟩
              rw [habsent] at hrequired
              cases hrequired
            · intro p hp hargument
              obtain ⟨tag, htag⟩ := required.numbered p hp
              have hmem := h tag ((asked tag).mpr ⟨p, hp, hargument, htag⟩)
              exact ⟨tag, htag, integrityOf_of_find? hpresent ▸ hmem⟩
      · intro ⟨⟨p, hp, hargument⟩, carries⟩
        obtain ⟨tag, -, hmem⟩ := carries p hp hargument
        obtain ⟨present, hpresent, -⟩ := exists_find?_of_mem_integrityOf hmem
        simp only [filled, hpresent, hrequired, OrdSet.subset_iff]
        intro t ht
        obtain ⟨q, hq, hq', hqt⟩ := (asked t).mp ht
        obtain ⟨t', ht', hmem'⟩ := carries q hq hq'
        rw [hqt, Option.some.injEq] at ht'
        rw [ht', ← integrityOf_of_find? hpresent]
        exact hmem'

theorem all_filled_iff {values : List (String × Value)} (names : Names book o entry values)
    (numbers : RuleBook.Numbers book.tagNames entry rule) :
    values.all (filled entry marks) = true ↔
      (∀ argument, o.Assigns argument → ∃ p, p ∈ rule.preconditions ∧ p.argument = argument) ∧
        ∀ p, p ∈ rule.preconditions → o.Assigns p.argument → Meets book.tagNames marks o p := by
  have roles := names.roles
  rw [List.all_eq_true]
  constructor
  · intro hall
    have role : ∀ argument, o.Assigns argument → ∃ v, o.Designates argument v ∧
        filled entry marks (argument, v) = true := by
      intro argument assigned
      obtain ⟨v, designated⟩ := assigned.designates roles
      exact ⟨v, designated, hall _ ((Operation.mem_roleValues roles).mpr ⟨assigned, designated⟩)⟩
    constructor
    · intro argument assigned
      obtain ⟨v, -, hfilled⟩ := role argument assigned
      exact ((filled_iff numbers.required).mp hfilled).1
    · intro p hp assigned
      obtain ⟨v, designated, hfilled⟩ := role p.argument assigned
      obtain ⟨tag, htag, hmem⟩ := ((filled_iff numbers.required).mp hfilled).2 p hp rfl
      exact ⟨v, tag, designated, htag, hmem⟩
  · intro ⟨known, met⟩ (argument, v) hrole
    obtain ⟨assigned, given, index, hgiven, hindex, -, hvalue⟩ :=
      (Operation.mem_roleValues roles).mp hrole
    refine (filled_iff numbers.required).mpr ⟨known argument assigned, ?_⟩
    intro p hp hargument
    subst hargument
    obtain ⟨v', tag, ⟨given', index', hgiven', hindex', -, hvalue'⟩, htag, hmem⟩ :=
      met p hp assigned
    rw [hgiven, Option.some.injEq] at hgiven'
    rw [← hgiven', hindex, Option.some.injEq] at hindex'
    rw [← hindex', hvalue, Option.some.injEq] at hvalue'
    exact ⟨tag, htag, hvalue' ▸ hmem⟩

theorem Alters.exists_rule {rules : List PolicyRule} (holds : book.Holds rules)
    {action : RuleAction} {tag : Tag} (h : Alters book marks o action tag) :
    ∃ rule, rule ∈ rules ∧ o.ruleName = .ok rule.name ∧ rule.action = action ∧
      book.tag? rule.tag = some tag := by
  obtain ⟨entry, ⟨roles, names, -⟩, rfl, rfl⟩ := h
  obtain ⟨name, hname, -, he⟩ := names.rule
  obtain ⟨rule, hrule, rfl, numbers⟩ := holds.rule name entry he
  exact ⟨rule, hrule, hname, numbers.action.symm, numbers.tag⟩

theorem Alters.mono {rules : List PolicyRule} (holds : book.Holds rules) {x y : MarkMap}
    (h : ∀ v tag, tag ∈ integrityOf x v → tag ∈ integrityOf y v) {action : RuleAction} {tag : Tag}
    (alters : Alters book x o action tag) : Alters book y o action tag := by
  obtain ⟨entry, ⟨roles, names, hall⟩, hact⟩ := alters
  obtain ⟨name, -, -, he⟩ := names.rule
  obtain ⟨rule, -, -, numbers⟩ := holds.rule name entry he
  refine ⟨entry, ⟨roles, names, ?_⟩, hact⟩
  intro (argument, v) hrole
  obtain ⟨known, carries⟩ := (filled_iff numbers.required).mp (hall _ hrole)
  refine (filled_iff numbers.required).mpr ⟨known, ?_⟩
  intro p hp hargument
  obtain ⟨t, ht, hmem⟩ := carries p hp hargument
  exact ⟨t, ht, h v t hmem⟩

theorem treated_ruleMarks {values : List (String × Value)} {v w : Value}
    (solved : marks.find? w = some (ruleMarks entry values marks v))
    (untreated : ¬ Treated marks v entry.tag entry.action) :
    Treated marks w entry.tag entry.action ↔ values.all (filled entry marks) = true := by
  have hsecrecy := secrecyOf_of_find? solved
  have hintegrity := integrityOf_of_find? solved
  unfold Treated at untreated ⊢
  cases haction : entry.action with
  | addConfidentiality =>
      simp only [haction] at untreated
      simp [hsecrecy, mem_secrecy_ruleMarks, haction, untreated]
  | removeConfidentiality =>
      simp only [haction, not_not] at untreated
      simp [hsecrecy, mem_secrecy_ruleMarks, haction, untreated]
  | addIntegrity =>
      simp only [haction] at untreated
      simp [hintegrity, mem_integrity_ruleMarks, haction, untreated]

theorem not_treated_internal {v w : Value} {tag : Tag} {action : RuleAction}
    (solved : marks.find? w = some { secrecy := secrecyOf marks v })
    (untreated : ¬ Treated marks v tag action) : ¬ Treated marks w tag action := by
  have hsecrecy := secrecyOf_of_find? solved
  have hintegrity := integrityOf_of_find? solved
  cases action <;> simp_all [Treated]

theorem Solved.treated_iff {rules : List PolicyRule} (solved : Solved book marks o)
    (holds : book.Holds rules) (transform : o.operator = Sql.tagTransform) (hrule : rule ∈ rules)
    (named : o.ruleName = .ok rule.name) {v : Value} (hv : o.inputs[0]? = some v) {tag : Tag}
    (htag : number? book.tagNames rule.tag = some tag)
    (untreated : ¬ Treated marks v tag rule.action) :
    Treated marks (.default o.id) tag rule.action ↔
      Sql.isInternalRule rule.name = false ∧
        (∀ argument, o.Assigns argument → ∃ p, p ∈ rule.preconditions ∧ p.argument = argument) ∧
          ∀ p, p ∈ rule.preconditions → o.Assigns p.argument → Meets book.tagNames marks o p := by
  obtain ⟨entry, hentry, numbers⟩ := holds.entry rule hrule
  have hsame : entry.tag = tag := Option.some.inj (numbers.tag.symm.trans htag)
  rw [← hsame, ← numbers.action] at untreated ⊢
  have hnew : ∃ new, transformMarks book marks o = .ok new ∧
      marks.find? (.default o.id) = some new := by
    rcases solved with h | ⟨new, h, hfind⟩
    · exact absurd (by simp [Sql.operators, transform]) (transfer_eq_none h)
    · have hne : Sql.tagTransform ≠ Sql.merge := by decide
      rw [transfer, transform, if_neg hne, if_pos rfl] at h
      obtain ⟨new', hnew', h⟩ := Outcome.bind_eq_ok.mp h
      cases h
      exact ⟨new, hnew', hfind⟩
  obtain ⟨new, hmarks, hfind⟩ := hnew
  obtain ⟨v', hv', hcases⟩ := transformMarks_cases hmarks
  rw [transformedValue_eq_ok, hv, Option.some.injEq] at hv'
  subst hv'
  rcases hcases with ⟨name, hname, internal, rfl⟩ | ⟨entry', values, names, rfl⟩
  · rw [named, Except.ok.injEq] at hname
    have untouched := not_treated_internal hfind untreated
    simp [hname, internal, untouched]
  · obtain ⟨name, hname, internal, hentry'⟩ := names.rule
    rw [named, Except.ok.injEq] at hname
    subst hname
    rw [hentry, Option.some.injEq] at hentry'
    subst hentry'
    rw [treated_ruleMarks hfind untreated, all_filled_iff names numbers]
    simp [internal]

/-- A rule acts on a value that it has not treated already exactly when the transform assigns
only arguments of the rule and the preconditions on the assigned ones are met. Then all its
preconditions are met exactly when all its arguments are assigned. -/
theorem treated_iff_assigned_met {rules : List PolicyRule} {m : Module} {limit : Nat}
    {f : Fixpoint} (hbook : RuleBook.ofRules rules = .ok book)
    (hrun : run book m limit {} = .ok (some f)) (ho : o ∈ m.operations)
    (transform : o.operator = Sql.tagTransform) (hrule : rule ∈ rules)
    (named : o.ruleName = .ok rule.name) {v : Value} (hv : o.inputs[0]? = some v) {tag : Tag}
    (htag : number? book.tagNames rule.tag = some tag)
    (untreated : ¬ Treated f.marks v tag rule.action) :
    (Treated f.marks (.default o.id) tag rule.action ↔
      Sql.isInternalRule rule.name = false ∧
        (∀ argument, o.Assigns argument → ∃ p, p ∈ rule.preconditions ∧ p.argument = argument) ∧
          ∀ p, p ∈ rule.preconditions → o.Assigns p.argument → Meets book.tagNames f.marks o p) ∧
      (Treated f.marks (.default o.id) tag rule.action →
        ((∀ p, p ∈ rule.preconditions → Meets book.tagNames f.marks o p) ↔
          ∀ p, p ∈ rule.preconditions → o.Assigns p.argument)) := by
  have acts := (run_solved hrun o ho).treated_iff (RuleBook.holds_ofRules hbook) transform hrule
    named hv htag untreated
  refine ⟨acts, ?_⟩
  intro treated
  have met := (acts.mp treated).2.2
  constructor
  · intro all p hp
    obtain ⟨w, t, designated, -⟩ := all p hp
    exact designated.assigns named
  · intro assigned p hp
    exact met p hp (assigned p hp)

/-! ## A release with and without its review -/

namespace Release

def reviewed : Operation :=
  .standalone 3 Sql.tagTransform
    [(Sql.ruleName, .text "release"), ("reviewer", .integer 1)] [.result 1 0, .result 2 0]

/-- The same release, without a word on who reviewed it. -/
def unreviewed : Operation :=
  .standalone 4 Sql.tagTransform [(Sql.ruleName, .text "release")] [.result 1 0]

def root : Module :=
  ⟨0, [⟨0, none, .empty, .empty, .empty,
    [.standalone 0 Sql.literal [] [],
      .standalone 1 Sql.tagTransform [(Sql.ruleName, .text "classify")] [.result 0 0],
      .standalone 2 Sql.tagTransform [(Sql.ruleName, .text "review")] [.result 1 0],
      reviewed, unreviewed,
      .standalone 5 Sql.output [] [.result 4 0]]⟩]⟩

def release : PolicyRule :=
  ⟨"release", .removeConfidentiality, "secret", [⟨"reviewer", "reviewed"⟩]⟩

def rules : List PolicyRule :=
  [⟨"classify", .addConfidentiality, "secret", []⟩, ⟨"review", .addIntegrity, "reviewed", []⟩,
    release]

/-- The release with a reviewer takes the secret away, and its precondition is met. -/
theorem treated_iff_assigned_met_reviewed :
    ∃ book f, RuleBook.ofRules rules = .ok book ∧ fixpoint book root = .ok (some f) ∧
      ¬ Treated f.marks (.result 1 0) 0 release.action ∧
        Treated f.marks (.result 3 0) 0 release.action ∧
          ∀ p, p ∈ release.preconditions → Meets book.tagNames f.marks reviewed p := by
  obtain ⟨book, f, hbook, hrun, htag, hbefore, hafter⟩ : ∃ book f,
      RuleBook.ofRules rules = .ok book ∧ fixpoint book root = .ok (some f) ∧
        number? book.tagNames release.tag = some 0 ∧ 0 ∈ secrecyOf f.marks (.result 1 0) ∧
          0 ∉ secrecyOf f.marks (.result 3 0) := ⟨_, _, rfl, rfl, rfl, by decide, by decide⟩
  have untreated : ¬ Treated f.marks (.result 1 0) 0 release.action := not_not.mpr hbefore
  have listed : reviewed ∈ root.operations := List.mem_of_getElem? (i := 3) rfl
  have authored : release ∈ rules := by decide
  have released :=
    treated_iff_assigned_met hbook hrun listed rfl authored rfl rfl htag untreated
  exact ⟨book, f, hbook, hrun, untreated, hafter, (released.2 hafter).mpr (by decide)⟩

/-- The release without a reviewer takes the secret away too, and the module complies. -/
theorem unreviewed_release_treats :
    unreviewed ∈ root.operations ∧ unreviewed.ruleName = .ok release.name ∧ release ∈ rules ∧
      unreviewed.find? "reviewer" = none ∧
        ∃ book f, RuleBook.ofRules rules = .ok book ∧ fixpoint book root = .ok (some f) ∧
          number? book.tagNames release.tag = some 0 ∧ 0 ∈ secrecyOf f.marks (.result 1 0) ∧
            0 ∉ secrecyOf f.marks (.result 4 0) ∧ complies root f = true := by
  have listed : unreviewed ∈ root.operations := List.mem_of_getElem? (i := 4) rfl
  exact ⟨listed, rfl, by decide, rfl, _, _, rfl, rfl, rfl, by decide, by decide, rfl⟩

end Release

end Rescan

end TagFlow
