import TagFlow.Proofs.Policy.Leak
import TagFlow.Proofs.Policy.RescanLoops

/-! # The least marks

Where no rule that removes a tag has preconditions, no removal waits, so the passes settle
whatever loops there are. Marks only grow from one pass to the next. Reading a missing entry
as no tags, what an operation gives grows with what it reads; so no write ever goes beyond
marks that already have everything their operations give, and the passes settle on the least
such marks.
-/

namespace TagFlow

namespace Rescan

variable {book : RuleBook} {m : Module} {x y : MarkMap} {o : Operation}

theorem Marks.le_trans {a b c : Marks} (hab : a ≤ b) (hbc : b ≤ c) : a ≤ c :=
  ⟨fun tag h => hbc.1 tag (hab.1 tag h), fun tag h => hbc.2 tag (hab.2 tag h)⟩

theorem Marks.empty_le (a : Marks) : {} ≤ a :=
  ⟨fun tag h => absurd h (OrdSet.not_mem_empty tag),
    fun tag h => absurd h (OrdSet.not_mem_empty tag)⟩

/-! ## From pass to pass -/

theorem Below.refl (x : MarkMap) : Below x x := fun _ a ha => ⟨a, ha, Marks.le_refl a⟩

theorem Below.trans {z : MarkMap} (hxy : Below x y) (hyz : Below y z) : Below x z := by
  intro v a ha
  obtain ⟨b, hb, hab⟩ := hxy v a ha
  obtain ⟨c, hc, hbc⟩ := hyz v b hb
  exact ⟨c, hc, Marks.le_trans hab hbc⟩

/-- A pass only grows marks that are below what their equations give. -/
theorem Rising.below_rescan (hu : Unguarded book) (distinct : (m.operations.map (·.id)).Nodup)
    (h : Rising book m x) : Below x (rescan book m x) := by
  have kept : Rising book m (rescan book m x) ∧ Below x (rescan book m x) := by
    refine rescan_keeps (fun y => Rising book m y ∧ Below x y) ?_ ⟨h, Below.refl x⟩
    rintro o y new ho ⟨rising, below⟩ ht
    exact ⟨rising.insert hu distinct ho ht, below.trans (rising.below_insert ho ht)⟩
  exact kept.2

theorem iterate_rising (hu : Unguarded book) (distinct : (m.operations.map (·.id)).Nodup)
    (k : Nat) : Rising book m ((rescan book m)^[k] .empty) :=
  iterate_keeps (Rising book m) Rising.empty (fun _ _ _ ho rising ht =>
    rising.insert hu distinct ho ht) k

theorem after_of_run {limit : Nat} {f f' : Fixpoint} (h : run book m limit f = .ok (some f'))
    (hf : after book m f.passes = .ok f.marks) : after book m f'.passes = .ok f'.marks := by
  induction limit generalizing f with
  | zero => cases h
  | succ limit ih =>
      obtain ⟨marks, changed, hp, rest⟩ := run_succ_cases h
      have next : after book m (f.passes + 1) = .ok marks := by
        rw [after, hf]
        exact Outcome.bind_eq_ok.mpr ⟨_, rfl, Outcome.bind_eq_ok.mpr ⟨_, hp, rfl⟩⟩
      rcases rest with ⟨-, hrun⟩ | ⟨-, rfl⟩
      · exact ih hrun next
      · exact next

/-! ## Closed marks -/

/-- Every SQL operation can be evaluated on the marks, and they have all that it gives, a missing
entry read as no tags. -/
def Closed (book : RuleBook) (m : Module) (marks : MarkMap) : Prop :=
  ∀ o, o ∈ m.operations → o.operator ∈ Sql.operators →
    ∃ new, transfer book marks o = .ok (some new) ∧ new ≤ marksOf marks (.default o.id)

theorem Solution.closed (h : Solution book m x) : Closed book m x := by
  intro o ho hop
  obtain ⟨new, hnew, hf⟩ := h.equations o ho hop
  exact ⟨new, hnew, marksOf_of_find? hf ▸ Marks.le_refl new⟩

/-- What an operation gives grows with what it reads, also where entries are missing. -/
theorem transfer_le {rules : List PolicyRule} (holds : book.Holds rules)
    (hu : Unguarded book) (h : ∀ v, marksOf x v ≤ marksOf y v) {a b : Marks}
    (ha : transfer book x o = .ok (some a)) (hb : transfer book y o = .ok (some b)) : a ≤ b := by
  have integrity : ∀ v tag, tag ∈ integrityOf x v → tag ∈ integrityOf y v := fun v => (h v).2
  constructor
  · intro tag htag
    rw [mem_secrecy_transfer ha] at htag
    rw [mem_secrecy_transfer hb]
    rcases htag with ⟨hop, v, hv, hmem⟩ | ⟨hop, adds | ⟨⟨v, hv, hmem⟩, kept⟩⟩
    · exact .inl ⟨hop, v, hv, (h v).1 tag hmem⟩
    · exact .inr ⟨hop, .inl (adds.mono holds integrity)⟩
    · exact .inr ⟨hop, .inr ⟨⟨v, hv, (h v).1 tag hmem⟩, fun removes =>
        kept (alters_remove_of_unguarded hu removes)⟩⟩
  · intro tag htag
    rw [mem_integrity_transfer ha] at htag
    rw [mem_integrity_transfer hb]
    obtain ⟨hop, adds | ⟨named, v, hv, hmem⟩⟩ := htag
    · exact ⟨hop, .inl (adds.mono holds integrity)⟩
    · exact ⟨hop, .inr ⟨named, v, hv, integrity v tag hmem⟩⟩

theorem run_le_closed {rules : List PolicyRule} (holds : book.Holds rules) (hu : Unguarded book)
    (closed : Closed book m x) {limit : Nat} {f : Fixpoint}
    (h : run book m limit {} = .ok (some f)) (v : Value) : marksOf f.marks v ≤ marksOf x v := by
  refine run_keeps (fun marks => ∀ v, marksOf marks v ≤ marksOf x v) ?_
    (fun v => Marks.empty_le _) h v
  intro o marks new ho below ht v
  by_cases hv : v = .default o.id
  · obtain ⟨own, hown, hle⟩ := closed o ho (mem_operators_of_transfer ht)
    rw [hv, marksOf_of_find? (OrdMap.find?_insert_self marks _ new)]
    exact Marks.le_trans (transfer_le holds hu below ht hown) hle
  · have same : marksOf (marks.insert (.default o.id) new) v = marksOf marks v := by
      simp only [marksOf, secrecyOf, integrityOf, OrdMap.find?_insert_of_ne marks new hv]
    rw [same]
    exact below v

/-! ## The least marks -/

theorem tame_of_unguarded (hu : Unguarded book) : Tame book m := by
  rintro tag r - ⟨roles, nonempty, removes⟩
  obtain ⟨entry, names, hact, -, known⟩ := removes.rule
  obtain ⟨name, -, -, he⟩ := names.rule
  obtain ⟨role, hrole⟩ := List.exists_mem_of_ne_nil roles nonempty
  have hknown := known role hrole
  rw [hu name entry he hact role.1] at hknown
  cases hknown

/-- Where no rule that removes a tag has preconditions, the passes settle on the least closed
marks, and marks only grow from pass to pass. -/
theorem fixpoint_least_of_unguarded {rules : List PolicyRule}
    (hbook : RuleBook.ofRules rules = .ok book) (distinct : (m.operations.map (·.id)).Nodup)
    (evaluable : ∀ o, o ∈ m.operations → ∃ marks r, transfer book marks o = .ok r)
    (unguarded : ∀ rule, rule ∈ rules → rule.action = .removeConfidentiality →
      rule.preconditions = []) :
    ∃ f, fixpoint book m = .ok (some f) ∧ after book m f.passes = .ok f.marks ∧
      (∀ k, ∃ x y, after book m k = .ok x ∧ after book m (k + 1) = .ok y ∧ Below x y) ∧
      Closed book m f.marks ∧
      ∀ x, Closed book m x → ∀ v, marksOf f.marks v ≤ marksOf x v := by
  have hu := unguarded_of_rules hbook unguarded
  have accepts := accepts_of_evaluable evaluable
  obtain ⟨f, hf⟩ := fixpoint_of_tame hbook distinct accepts (tame_of_unguarded hu)
  refine ⟨f, hf, after_of_run hf rfl, ?_, (run_solution hf).closed, ?_⟩
  · intro k
    refine ⟨_, _, after_eq accepts k, after_eq accepts (k + 1), ?_⟩
    rw [Function.iterate_succ_apply']
    exact (iterate_rising hu distinct k).below_rescan hu distinct
  · intro x closed
    exact run_le_closed (RuleBook.holds_ofRules hbook) hu closed hf

/-! ## A loop that scrubs -/

namespace Scrubbing

/-- Operations 2, 3 and 4 form a loop. The stamp waits for a review that comes later in the
module, and the scrubbing asks for nothing. -/
def root : Module :=
  ⟨0, [⟨0, none, .empty, .empty, .empty,
    [.standalone 0 Sql.literal [] [],
      .standalone 1 Sql.tagTransform [(Sql.ruleName, .text "classify")] [.result 0 0],
      .standalone 2 Sql.merge [(Sql.controlStart, .integer 2)] [.result 1 0, .result 4 0],
      .standalone 3 Sql.tagTransform
        [(Sql.ruleName, .text "stamp"), ("reviewer", .integer 1)] [.result 2 0, .result 5 0],
      .standalone 4 Sql.tagTransform [(Sql.ruleName, .text "scrub")] [.result 3 0],
      .standalone 5 Sql.tagTransform [(Sql.ruleName, .text "review")] [.result 0 0],
      .standalone 6 Sql.output [] [.result 4 0]]⟩]⟩

def rules : List PolicyRule :=
  [⟨"classify", .addConfidentiality, "secret", []⟩, ⟨"review", .addIntegrity, "reviewed", []⟩,
    ⟨"stamp", .addConfidentiality, "stamped", [⟨"reviewer", "reviewed"⟩]⟩,
    ⟨"scrub", .removeConfidentiality, "secret", []⟩]

theorem fixpoint_least_of_unguarded_root :
    (root.operations.map (·.id)).Nodup ∧
      (∀ rule, rule ∈ rules → rule.action = .removeConfidentiality → rule.preconditions = []) ∧
      ∃ book f, RuleBook.ofRules rules = .ok book ∧
        (∀ o, o ∈ root.operations → ∃ marks r, transfer book marks o = .ok r) ∧
        fixpoint book root = .ok (some f) ∧ after book root f.passes = .ok f.marks ∧
        (∀ k, ∃ x y, after book root k = .ok x ∧ after book root (k + 1) = .ok y ∧ Below x y) ∧
        Closed book root f.marks ∧
        ∀ x, Closed book root x → ∀ v, marksOf f.marks v ≤ marksOf x v := by
  have distinct : (root.operations.map (·.id)).Nodup := by decide
  have unguarded : ∀ rule, rule ∈ rules → rule.action = .removeConfidentiality →
      rule.preconditions = [] := by decide
  obtain ⟨book, hbook, onNothing⟩ : ∃ book, RuleBook.ofRules rules = .ok book ∧
      ∀ o, o ∈ root.operations → (transfer book .empty o).isOk = true :=
    ⟨_, rfl, by decide⟩
  have evaluable := evaluable_of_isOk onNothing
  obtain ⟨f, hf, least⟩ := fixpoint_least_of_unguarded hbook distinct evaluable unguarded
  exact ⟨distinct, unguarded, book, f, hbook, evaluable, hf, least⟩

end Scrubbing

end Rescan

end TagFlow
