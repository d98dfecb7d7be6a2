import TagFlow.Policy.Rescan
import TagFlow.Proofs.Policy.Roles

/-! # What a rescan keeps and what it settles on

One visit of an operation writes the operation's own entry or changes nothing. A pass that
changes nothing has evaluated every operation on the marks it returns, so these satisfy the
equation of every operation. Whatever a write keeps holds of the marks at the end.
-/

namespace TagFlow

namespace Rescan

variable {book : RuleBook} {m : Module} {marks : MarkMap} {o : Operation}

theorem secrecyOf_of_find? {v : Value} {new : Marks} (h : marks.find? v = some new) :
    secrecyOf marks v = new.secrecy := by
  simp [secrecyOf, h]

theorem integrityOf_of_find? {v : Value} {new : Marks} (h : marks.find? v = some new) :
    integrityOf marks v = new.integrity := by
  simp [integrityOf, h]

theorem exists_find?_of_mem_secrecyOf {v : Value} {tag : Tag} (h : tag ∈ secrecyOf marks v) :
    ∃ new, marks.find? v = some new ∧ tag ∈ new.secrecy := by
  unfold secrecyOf at h
  cases hf : marks.find? v with
  | none => simp [hf] at h
  | some new => exact ⟨new, rfl, by simpa [hf] using h⟩

theorem exists_find?_of_mem_integrityOf {v : Value} {tag : Tag}
    (h : tag ∈ integrityOf marks v) : ∃ new, marks.find? v = some new ∧ tag ∈ new.integrity := by
  unfold integrityOf at h
  cases hf : marks.find? v with
  | none => simp [hf] at h
  | some new => exact ⟨new, rfl, by simpa [hf] using h⟩

def marksOf (marks : MarkMap) (v : Value) : Marks :=
  ⟨secrecyOf marks v, integrityOf marks v⟩

theorem marksOf_of_find? {v : Value} {new : Marks} (h : marks.find? v = some new) :
    marksOf marks v = new := by
  rw [marksOf, secrecyOf_of_find? h, integrityOf_of_find? h]

/-! ## Rules that fire -/

/-- The rule of the book that a tag transform names, and its roles. -/
structure Names (book : RuleBook) (o : Operation) (entry : RuleBook.Entry)
    (roles : List (String × Value)) : Prop where
  rule : ∃ name, o.ruleName = .ok name ∧ Sql.isInternalRule name = false ∧
    book.rule? name = some entry
  roles : o.roleValues = .ok roles

/-- The tag transform applies a rule of the book: every role is filled. -/
def Fires (book : RuleBook) (marks : MarkMap) (o : Operation) (entry : RuleBook.Entry) : Prop :=
  ∃ roles, Names book o entry roles ∧ ∀ role, role ∈ roles → filled entry marks role = true

/-- A rule with the given action on the given tag fires. -/
def Alters (book : RuleBook) (marks : MarkMap) (o : Operation) (action : RuleAction)
    (tag : Tag) : Prop :=
  ∃ entry, Fires book marks o entry ∧ entry.action = action ∧ entry.tag = tag

theorem Names.unique {entry entry' : RuleBook.Entry} {roles roles' : List (String × Value)}
    (h : Names book o entry roles) (h' : Names book o entry' roles') :
    entry = entry' ∧ roles = roles' := by
  obtain ⟨name, hn, -, he⟩ := h.rule
  obtain ⟨name', hn', -, he'⟩ := h'.rule
  rw [hn, Except.ok.injEq] at hn'
  subst hn'
  rw [he, Option.some.injEq] at he'
  have hr := h.roles
  rw [h'.roles, Except.ok.injEq] at hr
  exact ⟨he', hr.symm⟩

/-- The action of the rule that an operation names. -/
def namedAction? (book : RuleBook) (o : Operation) : Option RuleAction :=
  (o.ruleName.toOption.bind book.rule?).map (·.action)

theorem Names.namedAction?_eq {entry : RuleBook.Entry} {roles : List (String × Value)}
    (h : Names book o entry roles) : namedAction? book o = some entry.action := by
  obtain ⟨name, hn, -, he⟩ := h.rule
  simp [namedAction?, hn, he, Except.toOption]

theorem Names.fires_iff {entry : RuleBook.Entry} {roles : List (String × Value)}
    (h : Names book o entry roles) :
    Fires book marks o entry ↔ roles.all (filled entry marks) = true := by
  rw [List.all_eq_true]
  constructor
  · intro ⟨roles', h', hall⟩
    rw [(h.unique h').2]
    exact hall
  · intro hall
    exact ⟨roles, h, hall⟩

theorem Names.alters_iff {entry : RuleBook.Entry} {roles : List (String × Value)}
    (h : Names book o entry roles) {action : RuleAction} {tag : Tag} :
    Alters book marks o action tag ↔
      roles.all (filled entry marks) = true ∧ entry.action = action ∧ entry.tag = tag := by
  rw [← h.fires_iff]
  constructor
  · intro ⟨entry', hf, ha, ht⟩
    obtain ⟨roles', h', hall⟩ := hf
    obtain ⟨rfl, rfl⟩ := h.unique h'
    exact ⟨⟨roles, h, hall⟩, ha, ht⟩
  · intro ⟨hf, ha, ht⟩
    exact ⟨entry, hf, ha, ht⟩

theorem not_alters_of_internal {name : String} (hn : o.ruleName = .ok name)
    (hi : Sql.isInternalRule name = true) (action : RuleAction) (tag : Tag) :
    ¬ Alters book marks o action tag := by
  intro ⟨entry, hf, _⟩
  obtain ⟨roles, hnames, -⟩ := hf
  obtain ⟨name', hn', hi', -⟩ := hnames.rule
  rw [hn, Except.ok.injEq] at hn'
  rw [hn', hi'] at hi
  cases hi

/-- The marks of a transform's result under a rule of the book. -/
def ruleMarks (entry : RuleBook.Entry) (roles : List (String × Value)) (marks : MarkMap)
    (v : Value) : Marks :=
  if roles.all (filled entry marks) then fire entry ⟨secrecyOf marks v, integrityOf marks v⟩
  else ⟨secrecyOf marks v, integrityOf marks v⟩

theorem mem_secrecy_ruleMarks {entry : RuleBook.Entry} {roles : List (String × Value)}
    {v : Value} {tag : Tag} :
    tag ∈ (ruleMarks entry roles marks v).secrecy ↔
      (roles.all (filled entry marks) = true ∧ entry.action = .addConfidentiality ∧
          entry.tag = tag) ∨
        (tag ∈ secrecyOf marks v ∧ ¬ (roles.all (filled entry marks) = true ∧
          entry.action = .removeConfidentiality ∧ entry.tag = tag)) := by
  unfold ruleMarks fire
  by_cases hall : roles.all (filled entry marks) = true
  · cases entry.action <;> simp [hall, eq_comm]
  · simp [hall]

theorem mem_integrity_ruleMarks {entry : RuleBook.Entry} {roles : List (String × Value)}
    {v : Value} {tag : Tag} :
    tag ∈ (ruleMarks entry roles marks v).integrity ↔
      (roles.all (filled entry marks) = true ∧ entry.action = .addIntegrity ∧
          entry.tag = tag) ∨ tag ∈ integrityOf marks v := by
  unfold ruleMarks fire
  by_cases hall : roles.all (filled entry marks) = true
  · cases entry.action <;> simp [hall, eq_comm]
  · simp [hall]

/-! ## One operation -/

/-- A transform keeps the secrecy of the transformed value; with a rule of the book it
also keeps the integrity and lets the rule act. -/
theorem transformMarks_cases {new : Marks} (h : transformMarks book marks o = .ok new) :
    ∃ v, o.transformedValue = .ok v ∧
      ((∃ name, o.ruleName = .ok name ∧ Sql.isInternalRule name = true ∧
          new = { secrecy := secrecyOf marks v }) ∨
        ∃ entry roles, Names book o entry roles ∧ new = ruleMarks entry roles marks v) := by
  unfold transformMarks at h
  obtain ⟨v, hv, h⟩ := Outcome.bind_eq_ok.mp h
  obtain ⟨name, hn, h⟩ := Outcome.bind_eq_ok.mp h
  refine ⟨v, hv, ?_⟩
  by_cases hi : Sql.isInternalRule name = true
  · rw [if_pos hi] at h
    cases h
    exact .inl ⟨name, hn, hi, rfl⟩
  · rw [if_neg hi] at h
    cases he : book.rule? name with
    | none =>
        rw [he] at h
        cases h
    | some entry =>
        rw [he] at h
        obtain ⟨roles, hr, h⟩ := Outcome.bind_eq_ok.mp h
        cases h
        exact .inr ⟨entry, roles, ⟨⟨name, hn, by simpa using hi, he⟩, hr⟩, rfl⟩

theorem transformMarks_of_internal {v : Value} {name : String}
    (hv : o.transformedValue = .ok v) (hn : o.ruleName = .ok name)
    (hi : Sql.isInternalRule name = true) :
    transformMarks book marks o = .ok { secrecy := secrecyOf marks v } := by
  simp [transformMarks, hv, hn, hi, bind, Except.bind, pure, Except.pure]

theorem transformMarks_of_names {v : Value} {entry : RuleBook.Entry}
    {roles : List (String × Value)} (hv : o.transformedValue = .ok v)
    (h : Names book o entry roles) :
    transformMarks book marks o = .ok (ruleMarks entry roles marks v) := by
  obtain ⟨name, hn, hi, he⟩ := h.rule
  simp [transformMarks, ruleMarks, hv, hn, hi, he, h.roles, bind, Except.bind, pure, Except.pure]

theorem mem_secrecy_mergeMarks {tag : Tag} :
    tag ∈ (mergeMarks marks o).secrecy ↔ ∃ v, v ∈ o.inputs ∧ tag ∈ secrecyOf marks v := by
  have go : ∀ (vs : List Value) (acc : TagSet),
      tag ∈ vs.foldl (fun acc v => acc.union (secrecyOf marks v)) acc ↔
        tag ∈ acc ∨ ∃ v, v ∈ vs ∧ tag ∈ secrecyOf marks v := by
    intro vs
    induction vs with
    | nil => simp
    | cons v vs ih => simp [ih, or_assoc]
  simpa [mergeMarks] using go o.inputs .empty

/-- What an operation's own marks have to say about secrecy, by the kind of operation. -/
def Receives (book : RuleBook) (marks : MarkMap) (o : Operation) (tag : Tag) : Prop :=
  (o.operator = Sql.merge ∧ ∃ v, v ∈ o.inputs ∧ tag ∈ secrecyOf marks v) ∨
    (o.operator = Sql.tagTransform ∧
      (Alters book marks o .addConfidentiality tag ∨
        (∃ v, o.inputs[0]? = some v ∧ tag ∈ secrecyOf marks v) ∧
          ¬ Alters book marks o .removeConfidentiality tag))

theorem transformedValue_eq_ok {v : Value} :
    o.transformedValue = .ok v ↔ o.inputs[0]? = some v :=
  Operation.input_eq_ok

/-- The four kinds of operations that have marks. -/
theorem transfer_cases {new : Marks} (h : transfer book marks o = .ok (some new)) :
    (o.operator = Sql.merge ∧ new = mergeMarks marks o) ∨
      (o.operator = Sql.tagTransform ∧ transformMarks book marks o = .ok new) ∨
        ((o.operator = Sql.literal ∨ o.operator = Sql.output) ∧ new = {}) := by
  unfold transfer at h
  by_cases hm : o.operator = Sql.merge
  · rw [if_pos hm] at h
    cases h
    exact .inl ⟨hm, rfl⟩
  · rw [if_neg hm] at h
    by_cases ht : o.operator = Sql.tagTransform
    · rw [if_pos ht] at h
      obtain ⟨new', hn, h⟩ := Outcome.bind_eq_ok.mp h
      cases h
      exact .inr (.inl ⟨ht, hn⟩)
    · rw [if_neg ht] at h
      by_cases hl : o.operator = Sql.literal ∨ o.operator = Sql.output
      · rw [if_pos hl] at h
        cases h
        exact .inr (.inr ⟨hl, rfl⟩)
      · rw [if_neg hl] at h
        cases h

theorem mem_secrecy_transfer {new : Marks} (h : transfer book marks o = .ok (some new))
    {tag : Tag} : tag ∈ new.secrecy ↔ Receives book marks o tag := by
  unfold Receives
  rcases transfer_cases h with ⟨hop, rfl⟩ | ⟨hop, ht⟩ | ⟨hop, rfl⟩
  · rw [mem_secrecy_mergeMarks]
    simp [hop, show Sql.merge ≠ Sql.tagTransform by decide]
  · obtain ⟨v, hv, ⟨name, hn, hi, rfl⟩ | ⟨entry, roles, hnames, rfl⟩⟩ := transformMarks_cases ht
    all_goals rw [transformedValue_eq_ok] at hv
    · simp [hop, show Sql.tagTransform ≠ Sql.merge by decide, hv,
        not_alters_of_internal hn hi]
    · rw [mem_secrecy_ruleMarks, ← hnames.alters_iff, ← hnames.alters_iff]
      simp [hop, show Sql.tagTransform ≠ Sql.merge by decide, hv]
  · have hne : o.operator ≠ Sql.merge ∧ o.operator ≠ Sql.tagTransform := by
      rcases hop with hop | hop <;> rw [hop] <;> decide
    simp [hne]

/-- What an operation's own marks have to say about integrity: only tag transforms with a rule
of the book have any. -/
def Vouches (book : RuleBook) (marks : MarkMap) (o : Operation) (tag : Tag) : Prop :=
  o.operator = Sql.tagTransform ∧
    (Alters book marks o .addIntegrity tag ∨
      (∃ entry roles, Names book o entry roles) ∧
        ∃ v, o.inputs[0]? = some v ∧ tag ∈ integrityOf marks v)

theorem mem_integrity_transfer {new : Marks} (h : transfer book marks o = .ok (some new))
    {tag : Tag} : tag ∈ new.integrity ↔ Vouches book marks o tag := by
  unfold Vouches
  rcases transfer_cases h with ⟨hop, rfl⟩ | ⟨hop, ht⟩ | ⟨hop, rfl⟩
  · simp [hop, mergeMarks, show Sql.merge ≠ Sql.tagTransform by decide]
  · obtain ⟨v, hv, ⟨name, hn, hi, rfl⟩ | ⟨entry, roles, hnames, rfl⟩⟩ := transformMarks_cases ht
    · have unnamed : ¬ ∃ entry roles, Names book o entry roles := by
        intro ⟨entry, roles, hnames⟩
        obtain ⟨name', hn', hi', -⟩ := hnames.rule
        rw [hn, Except.ok.injEq] at hn'
        rw [hn', hi'] at hi
        cases hi
      simp [hop, unnamed, not_alters_of_internal hn hi]
    · have named : ∃ entry roles, Names book o entry roles := ⟨entry, roles, hnames⟩
      rw [mem_integrity_ruleMarks, ← hnames.alters_iff]
      simp [hop, named, transformedValue_eq_ok.mp hv]
  · have hne : o.operator ≠ Sql.tagTransform := by
      rcases hop with hop | hop <;> rw [hop] <;> decide
    simp [hne]

/-- Only the four SQL operators have marks. -/
theorem mem_operators_of_transfer {new : Marks} (h : transfer book marks o = .ok (some new)) :
    o.operator ∈ Sql.operators := by
  rcases transfer_cases h with ⟨hop, -⟩ | ⟨hop, -⟩ | ⟨hop | hop, -⟩ <;> simp [Sql.operators, hop]

theorem transfer_eq_none (h : transfer book marks o = .ok none) : o.operator ∉ Sql.operators := by
  unfold transfer at h
  intro hop
  by_cases hm : o.operator = Sql.merge
  · simp [hm] at h
  · by_cases ht : o.operator = Sql.tagTransform
    · rw [if_neg hm, if_pos ht] at h
      obtain ⟨new, -, h⟩ := Outcome.bind_eq_ok.mp h
      cases h
    · have hl : o.operator = Sql.literal ∨ o.operator = Sql.output := by
        simpa [Sql.operators, hm, ht] using hop
      simp [hm, ht, hl] at h

/-! ### What an evaluation depends on -/

/-- The two maps have the same entries at the values that the operation reads. -/
def Agree (o : Operation) (x y : MarkMap) : Prop :=
  ∀ v, v ∈ o.inputs → x.find? v = y.find? v

theorem Agree.secrecyOf_eq {x y : MarkMap} (h : Agree o x y) {v : Value} (hv : v ∈ o.inputs) :
    secrecyOf x v = secrecyOf y v := by
  simp only [secrecyOf, h v hv]

theorem Agree.mergeMarks_eq {x y : MarkMap} (h : Agree o x y) :
    mergeMarks x o = mergeMarks y o := by
  unfold mergeMarks
  congr 1
  apply List.foldl_ext
  intro acc v hv
  rw [h.secrecyOf_eq hv]

theorem Agree.transformMarks_eq {x y : MarkMap} (h : Agree o x y) :
    transformMarks book x o = transformMarks book y o := by
  unfold transformMarks
  cases hv : o.transformedValue with
  | error e => rfl
  | ok v =>
      have hin : v ∈ o.inputs := List.mem_of_getElem? (transformedValue_eq_ok.mp hv)
      have hsecrecy := h.secrecyOf_eq hin
      have hintegrity : integrityOf x v = integrityOf y v := by
        simp only [integrityOf, h v hin]
      cases hr : o.roleValues with
      | error e => simp only [bind, Except.bind, hsecrecy]
      | ok roles =>
          have hfilled : ∀ entry, roles.all (filled entry x) = roles.all (filled entry y) := by
            intro entry
            rw [Bool.eq_iff_iff, List.all_eq_true, List.all_eq_true]
            have one : ∀ role, role ∈ roles → filled entry x role = filled entry y role := by
              intro role hrole
              simp only [filled, h role.2 (Operation.mem_inputs_of_roleValues hr hrole)]
            constructor
            · intro hall role hrole
              rw [← one role hrole]
              exact hall role hrole
            · intro hall role hrole
              rw [one role hrole]
              exact hall role hrole
          simp only [bind, Except.bind, hsecrecy, hintegrity, hfilled]

theorem Agree.transfer_eq {x y : MarkMap} (h : Agree o x y) :
    transfer book x o = transfer book y o := by
  have htransform : transformMarks book x o = transformMarks book y o := h.transformMarks_eq
  simp only [transfer, h.mergeMarks_eq, htransform]

/-- The checks made while a tag transform is evaluated; they do not look at the marks. -/
def Accepts (book : RuleBook) (o : Operation) : Prop :=
  o.operator = Sql.tagTransform → ∃ v, o.transformedValue = .ok v ∧
    ((∃ name, o.ruleName = .ok name ∧ Sql.isInternalRule name = true) ∨
      ∃ entry roles, Names book o entry roles)

theorem transfer_total (h : Accepts book o) (marks : MarkMap) :
    ∃ r, transfer book marks o = .ok r := by
  unfold transfer
  by_cases hm : o.operator = Sql.merge
  · exact ⟨some (mergeMarks marks o), by rw [if_pos hm]⟩
  · rw [if_neg hm]
    by_cases ht : o.operator = Sql.tagTransform
    · rw [if_pos ht]
      obtain ⟨v, hv, hrule⟩ := h ht
      have total : ∃ new, transformMarks book marks o = .ok new := by
        rcases hrule with ⟨name, hn, hi⟩ | ⟨entry, roles, hnames⟩
        · exact ⟨_, transformMarks_of_internal hv hn hi⟩
        · exact ⟨_, transformMarks_of_names hv hnames⟩
      obtain ⟨new, hnew⟩ := total
      exact ⟨some new, Outcome.bind_eq_ok.mpr ⟨new, hnew, rfl⟩⟩
    · rw [if_neg ht]
      split
      · exact ⟨some {}, rfl⟩
      · exact ⟨none, rfl⟩

theorem transfer_of_sql (h : Accepts book o) (hop : o.operator ∈ Sql.operators)
    (marks : MarkMap) : ∃ new, transfer book marks o = .ok (some new) := by
  obtain ⟨r, hr⟩ := transfer_total h marks
  cases r with
  | none => exact absurd hop (transfer_eq_none hr)
  | some new => exact ⟨new, hr⟩

/-- An operation that was evaluated once has passed the checks. -/
theorem accepts_of_transfer {r : Option Marks} (h : transfer book marks o = .ok r) :
    Accepts book o := by
  intro hop
  have hnm : o.operator ≠ Sql.merge := by rw [hop]; decide
  rw [transfer, if_neg hnm, if_pos hop] at h
  obtain ⟨new, hnew, -⟩ := Outcome.bind_eq_ok.mp h
  obtain ⟨v, hv, ⟨name, hn, hi, -⟩ | ⟨entry, roles, hnames, -⟩⟩ := transformMarks_cases hnew
  · exact ⟨v, hv, .inl ⟨name, hn, hi⟩⟩
  · exact ⟨v, hv, .inr ⟨entry, roles, hnames⟩⟩

theorem accepts_of_evaluable
    (h : ∀ o, o ∈ m.operations → ∃ marks r, transfer book marks o = .ok r) :
    ∀ o, o ∈ m.operations → Accepts book o := by
  intro o ho
  obtain ⟨marks, r, hr⟩ := h o ho
  exact accepts_of_transfer hr

theorem evaluable_of_isOk
    (h : ∀ o, o ∈ m.operations → (transfer book .empty o).isOk = true) :
    ∀ o, o ∈ m.operations → ∃ marks r, transfer book marks o = .ok r := by
  intro o ho
  have fine := h o ho
  cases hr : transfer book .empty o with
  | error fault => simp [hr, Except.isOk, Except.toBool] at fine
  | ok r => exact ⟨.empty, r, hr⟩

/-! ## Visits, passes and runs -/

/-- The marks satisfy the equation of an operation. -/
def Solved (book : RuleBook) (marks : MarkMap) (o : Operation) : Prop :=
  transfer book marks o = .ok none ∨
    ∃ new, transfer book marks o = .ok (some new) ∧ marks.find? (.default o.id) = some new

theorem visit_cases {s s' : MarkMap × Bool} (h : visit book s o = .ok s') :
    (s' = s ∧ Solved book s.1 o) ∨
      ∃ new, transfer book s.1 o = .ok (some new) ∧
        s' = (s.1.insert (.default o.id) new, true) := by
  obtain ⟨r, hr, h⟩ := Outcome.bind_eq_ok.mp h
  cases r with
  | none =>
      cases h
      exact .inl ⟨rfl, .inl hr⟩
  | some new =>
      by_cases hf : s.1.find? (.default o.id) = some new
      · simp only [hf, if_true] at h
        cases h
        exact .inl ⟨rfl, .inr ⟨new, hr, hf⟩⟩
      · simp only [hf, if_false] at h
        cases h
        exact .inr ⟨new, hr, rfl⟩

theorem visit_of_solved (h : Solved book marks o) (changed : Bool) :
    visit book (marks, changed) o = .ok (marks, changed) := by
  rcases h with h | ⟨new, ht, hf⟩
  · simp [visit, h, bind, Except.bind, pure, Except.pure]
  · simp [visit, ht, hf, bind, Except.bind, pure, Except.pure]

theorem visit_total (h : Accepts book o) (s : MarkMap × Bool) : ∃ s', visit book s o = .ok s' := by
  obtain ⟨r, hr⟩ := transfer_total h s.1
  unfold visit
  rw [hr]
  cases r with
  | none => exact ⟨s, rfl⟩
  | some new =>
      by_cases hf : s.1.find? (.default o.id) = some new
      · exact ⟨s, by simp [bind, Except.bind, hf, pure, Except.pure]⟩
      · exact ⟨(s.1.insert (.default o.id) new, true), by
          simp [bind, Except.bind, hf, pure, Except.pure]⟩

theorem pass_total (h : ∀ o, o ∈ m.operations → Accepts book o) (marks : MarkMap) :
    ∃ s, pass book m marks = .ok s := by
  obtain ⟨s, hs, -⟩ := Outcome.foldlM_total (f := visit book) (fun _ _ => True)
    (l := m.operations) (s := (marks, false)) trivial (by
      intro done o s hnext _
      obtain ⟨s', hs'⟩ := visit_total (h o (Outcome.mem_of_concat_isPrefix hnext)) s
      exact ⟨s', hs', trivial⟩)
  exact ⟨s, hs⟩

/-- A pass that reports no change has changed nothing and found every equation satisfied. -/
theorem solved_of_pass {marks' : MarkMap} (h : pass book m marks = .ok (marks', false)) :
    marks' = marks ∧ ∀ o, o ∈ m.operations → Solved book marks o := by
  have kept := Outcome.foldlM_keeps
    (fun done (s : MarkMap × Bool) =>
      s.2 = false → s.1 = marks ∧ ∀ o, o ∈ done → Solved book marks o)
    (by simp) ?_ h
  · exact kept rfl
  · intro done o s s' _ ih hv unchanged
    rcases visit_cases hv with ⟨rfl, solved⟩ | ⟨new, -, rfl⟩
    · obtain ⟨rfl, before⟩ := ih unchanged
      refine ⟨rfl, ?_⟩
      intro p hp
      rcases List.mem_append.mp hp with hp | hp
      · exact before p hp
      · rw [List.mem_singleton.mp hp]
        exact solved
    · cases unchanged

/-- What every write of an operation's own marks keeps is kept by a pass. -/
theorem pass_keeps (Inv : MarkMap → Prop)
    (step : ∀ o marks new, o ∈ m.operations → Inv marks →
      transfer book marks o = .ok (some new) → Inv (marks.insert (.default o.id) new))
    {s' : MarkMap × Bool} (start : Inv marks) (h : pass book m marks = .ok s') : Inv s'.1 := by
  apply Outcome.foldlM_keeps (fun _ (s : MarkMap × Bool) => Inv s.1) start _ h
  intro _ o s s' ho ih hv
  rcases visit_cases hv with ⟨rfl, -⟩ | ⟨new, ht, rfl⟩
  · exact ih
  · exact step o s.1 new ho ih ht

theorem run_succ_cases {limit : Nat} {f f' : Fixpoint}
    (h : run book m (limit + 1) f = .ok (some f')) :
    ∃ marks changed, pass book m f.marks = .ok (marks, changed) ∧
      ((changed = true ∧ run book m limit ⟨marks, f.passes + 1⟩ = .ok (some f')) ∨
        (changed = false ∧ f' = ⟨marks, f.passes + 1⟩)) := by
  obtain ⟨⟨marks, changed⟩, hp, h⟩ := Outcome.bind_eq_ok.mp h
  refine ⟨marks, changed, hp, ?_⟩
  cases changed with
  | true => exact .inl ⟨rfl, h⟩
  | false =>
      cases h
      exact .inr ⟨rfl, rfl⟩

theorem run_keeps (Inv : MarkMap → Prop)
    (step : ∀ o marks new, o ∈ m.operations → Inv marks →
      transfer book marks o = .ok (some new) → Inv (marks.insert (.default o.id) new))
    {limit : Nat} {f f' : Fixpoint} (start : Inv f.marks)
    (h : run book m limit f = .ok (some f')) : Inv f'.marks := by
  induction limit generalizing f with
  | zero => cases h
  | succ limit ih =>
      obtain ⟨marks, changed, hp, hrest⟩ := run_succ_cases h
      have kept := pass_keeps Inv step start hp
      rcases hrest with ⟨-, hrun⟩ | ⟨-, rfl⟩
      · exact ih kept hrun
      · exact kept

/-- The marks that a run ends with satisfy every equation. -/
theorem run_solved {limit : Nat} {f f' : Fixpoint} (h : run book m limit f = .ok (some f')) :
    ∀ o, o ∈ m.operations → Solved book f'.marks o := by
  induction limit generalizing f with
  | zero => cases h
  | succ limit ih =>
      obtain ⟨marks, changed, hp, ⟨-, hrun⟩ | ⟨rfl, rfl⟩⟩ := run_succ_cases h
      · exact ih hrun
      · obtain ⟨rfl, solved⟩ := solved_of_pass hp
        exact solved

/-- Every entry belongs to a SQL operation of the module. -/
def Placed (m : Module) (marks : MarkMap) : Prop :=
  ∀ v new, marks.find? v = some new →
    ∃ o, o ∈ m.operations ∧ o.operator ∈ Sql.operators ∧ v = .default o.id

theorem Placed.insert {new : Marks} (h : Placed m marks) (ho : o ∈ m.operations)
    (ht : transfer book marks o = .ok (some new)) :
    Placed m (marks.insert (.default o.id) new) := by
  intro v old hf
  by_cases hv : v = .default o.id
  · exact ⟨o, ho, mem_operators_of_transfer ht, hv⟩
  · rw [OrdMap.find?_insert_of_ne marks new hv] at hf
    exact h v old hf

theorem Placed.empty : Placed m .empty := by
  intro v new hf
  simp at hf

theorem run_placed {limit : Nat} {f : Fixpoint} (h : run book m limit {} = .ok (some f)) :
    Placed m f.marks :=
  run_keeps (Placed m) (fun _ _ _ ho hp ht => hp.insert ho ht) Placed.empty h

/-- The secrecy tags are within the one set, the integrity tags within the other. -/
def Confined (secret vouched : Tag → Prop) (marks : MarkMap) : Prop :=
  ∀ v new, marks.find? v = some new →
    (∀ tag, tag ∈ new.secrecy → secret tag) ∧ ∀ tag, tag ∈ new.integrity → vouched tag

theorem Confined.empty {secret vouched : Tag → Prop} : Confined secret vouched .empty := by
  intro v new hf
  simp at hf

/-- A write brings no tags but those that a rule of the book adds. -/
theorem Confined.insert {secret vouched : Tag → Prop} {new : Marks}
    (h : Confined secret vouched marks) (ht : transfer book marks o = .ok (some new))
    (adds : ∀ tag, o.operator = Sql.tagTransform →
      Alters book marks o .addConfidentiality tag → secret tag)
    (vouches : ∀ tag, o.operator = Sql.tagTransform →
      Alters book marks o .addIntegrity tag → vouched tag) :
    Confined secret vouched (marks.insert (.default o.id) new) := by
  have present : ∀ v tag, tag ∈ secrecyOf marks v → secret tag := by
    intro v tag htag
    obtain ⟨old, hf, hmem⟩ := exists_find?_of_mem_secrecyOf htag
    exact (h v old hf).1 tag hmem
  have trusted : ∀ v tag, tag ∈ integrityOf marks v → vouched tag := by
    intro v tag htag
    obtain ⟨old, hf, hmem⟩ := exists_find?_of_mem_integrityOf htag
    exact (h v old hf).2 tag hmem
  intro v entry hf
  rw [OrdMap.find?_insert] at hf
  by_cases hv : v = .default o.id
  · rw [if_pos hv, Option.some.injEq] at hf
    subst hf
    constructor
    · intro tag htag
      rcases (mem_secrecy_transfer ht).mp htag with ⟨-, w, -, hw⟩ | ⟨hop, alters | ⟨⟨w, -, hw⟩, -⟩⟩
      · exact present w tag hw
      · exact adds tag hop alters
      · exact present w tag hw
    · intro tag htag
      obtain ⟨hop, alters | ⟨-, w, -, hw⟩⟩ := (mem_integrity_transfer ht).mp htag
      · exact vouches tag hop alters
      · exact trusted w tag hw
  · rw [if_neg hv] at hf
    exact h v entry hf

/-- A SQL operation's marks hold the tags that reach it and no others. -/
theorem Solved.mem_secrecyOf (h : Solved book marks o) (hop : o.operator ∈ Sql.operators)
    {tag : Tag} : tag ∈ secrecyOf marks (.default o.id) ↔ Receives book marks o tag := by
  rcases h with h | ⟨new, ht, hf⟩
  · exact absurd hop (transfer_eq_none h)
  · rw [secrecyOf_of_find? hf, mem_secrecy_transfer ht]

/-- The marks of the SQL operations, and no others, each as its equation says. -/
structure Solution (book : RuleBook) (m : Module) (marks : MarkMap) : Prop where
  entries : ∀ v, (∃ new, marks.find? v = some new) ↔
    ∃ o, o ∈ m.operations ∧ o.operator ∈ Sql.operators ∧ v = .default o.id
  equations : ∀ o, o ∈ m.operations → o.operator ∈ Sql.operators →
    ∃ new, transfer book marks o = .ok (some new) ∧ marks.find? (.default o.id) = some new

theorem run_solution {limit : Nat} {f : Fixpoint} (h : run book m limit {} = .ok (some f)) :
    Solution book m f.marks := by
  have equations : ∀ o, o ∈ m.operations → o.operator ∈ Sql.operators →
      ∃ new, transfer book f.marks o = .ok (some new) ∧
        f.marks.find? (.default o.id) = some new := by
    intro o ho hop
    rcases run_solved h o ho with unmarked | own
    · exact absurd hop (transfer_eq_none unmarked)
    · exact own
  refine ⟨?_, equations⟩
  intro v
  constructor
  · intro ⟨new, hf⟩
    exact run_placed h v new hf
  · intro ⟨o, ho, hop, hv⟩
    obtain ⟨new, -, hf⟩ := equations o ho hop
    exact ⟨new, hv ▸ hf⟩

/-! ## The verdict -/

theorem complies_eq_false_iff {f : Fixpoint} :
    complies m f = false ↔
      ∃ out, out ∈ m.operations ∧ out.operator = Sql.output ∧
        ∃ v, v ∈ out.inputs ∧ ∃ tag, tag ∈ secrecyOf f.marks v := by
  have hsecret : ∀ v, (secrecyOf f.marks v).isEmpty = false ↔ ∃ tag, tag ∈ secrecyOf f.marks v := by
    intro v
    rw [← Bool.not_eq_true, OrdSet.isEmpty_iff, not_forall_not]
  simp [complies, hsecret]

end Rescan

end TagFlow
