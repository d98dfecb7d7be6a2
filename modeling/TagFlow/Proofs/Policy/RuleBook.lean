import TagFlow.Proofs.Label.TagNames
import TagFlow.Proofs.Outcome

/-! # What a rule book holds

The entries of a rule book are the rules it was made from, with every tag replaced by its
number. A book is made exactly when no two rules share a name.
-/

namespace TagFlow

open TagNames

namespace RuleBook

/-- The arguments of the preconditions, each with the numbers of the tags that it has
to carry. -/
structure Collects (names : List String) (required : OrdMap String TagSet)
    (preconditions : List Precondition) : Prop where
  numbered : ∀ p, p ∈ preconditions → ∃ tag, number? names p.requiredTag = some tag
  absent : ∀ argument, required.find? argument = none ↔
    ∀ p, p ∈ preconditions → p.argument ≠ argument
  mem : ∀ argument tags, required.find? argument = some tags → ∀ tag, tag ∈ tags ↔
    ∃ p, p ∈ preconditions ∧ p.argument = argument ∧ number? names p.requiredTag = some tag

/-- An entry is a rule with numbered tags. -/
structure Numbers (names : List String) (entry : Entry) (rule : PolicyRule) : Prop where
  action : entry.action = rule.action
  tag : number? names rule.tag = some entry.tag
  required : Collects names entry.required rule.preconditions

theorem Collects.grow {names names' : List String} {required : OrdMap String TagSet}
    {preconditions : List Precondition} (h : Collects names required preconditions)
    (grown : Grows names names') : Collects names' required preconditions where
  numbered p hp := by
    obtain ⟨tag, ht⟩ := h.numbered p hp
    exact ⟨tag, number?_of_isPrefix grown.isPrefix ht⟩
  absent := h.absent
  mem argument tags hf tag := by
    rw [h.mem argument tags hf tag]
    constructor
    · intro ⟨p, hp, ha, ht⟩
      exact ⟨p, hp, ha, number?_of_isPrefix grown.isPrefix ht⟩
    · intro ⟨p, hp, ha, ht⟩
      obtain ⟨tag', ht'⟩ := h.numbered p hp
      have same : tag' = tag :=
        Option.some.inj ((number?_of_isPrefix grown.isPrefix ht').symm.trans ht)
      exact ⟨p, hp, ha, same ▸ ht'⟩

theorem Numbers.grow {names names' : List String} {entry : Entry} {rule : PolicyRule}
    (h : Numbers names entry rule) (grown : Grows names names') : Numbers names' entry rule where
  action := h.action
  tag := number?_of_isPrefix grown.isPrefix h.tag
  required := h.required.grow grown

theorem Collects.nil (names : List String) : Collects names .empty [] where
  numbered p hp := absurd hp (by simp)
  absent := by simp
  mem argument tags h := by simp at h

theorem Collects.mem_getD {names : List String} {required : OrdMap String TagSet}
    {preconditions : List Precondition} (h : Collects names required preconditions)
    {argument : String} {tag : Tag} :
    tag ∈ (required.find? argument).getD .empty ↔
      ∃ p, p ∈ preconditions ∧ p.argument = argument ∧ number? names p.requiredTag = some tag := by
  cases hf : required.find? argument with
  | none =>
      have none_yet := (h.absent argument).mp hf
      simp only [Option.getD_none, OrdSet.not_mem_empty, false_iff]
      intro h
      obtain ⟨p, hp, ha, -⟩ := h
      exact none_yet p hp ha
  | some tags => exact h.mem argument tags hf tag

theorem Collects.concat {names names' : List String} {required : OrdMap String TagSet}
    {done : List Precondition} {p : Precondition} {tag : Tag}
    (h : Collects names required done) (grown : Grows names names')
    (ht : number? names' p.requiredTag = some tag) :
    Collects names'
      (required.insert p.argument (((required.find? p.argument).getD .empty).insert tag))
      (done ++ [p]) := by
  have h' := h.grow grown
  constructor
  case numbered =>
    intro q hq
    rcases List.mem_append.mp hq with hq | hq
    · exact h'.numbered q hq
    · rw [List.mem_singleton.mp hq]
      exact ⟨tag, ht⟩
  case absent =>
    intro argument
    rw [OrdMap.find?_insert]
    by_cases ha : argument = p.argument
    · subst ha
      simp
    · rw [if_neg ha, h'.absent argument]
      simp [or_imp, forall_and, Ne.symm ha]
  case mem =>
    intro argument tags hf u
    rw [OrdMap.find?_insert] at hf
    by_cases ha : argument = p.argument
    · subst ha
      rw [if_pos rfl, Option.some.injEq] at hf
      rw [← hf, OrdSet.mem_insert, h'.mem_getD]
      simp [or_and_right, exists_or, ht, or_comm, eq_comm]
    · rw [if_neg ha] at hf
      rw [h'.mem argument tags hf u]
      simp [or_and_right, exists_or, Ne.symm ha]

theorem internRequired_spec {b : RuleBook} {required : OrdMap String TagSet}
    {done : List Precondition} (h : Collects b.tagNames required done)
    (preconditions : List Precondition) :
    (b.internRequired required preconditions).2.entries = b.entries ∧
      Grows b.tagNames (b.internRequired required preconditions).2.tagNames ∧
        Collects (b.internRequired required preconditions).2.tagNames
          (b.internRequired required preconditions).1 (done ++ preconditions) := by
  induction preconditions generalizing b required done with
  | nil => exact ⟨rfl, .refl _, by simpa [internRequired] using h⟩
  | cons p rest ih =>
      have hp := intern_spec b p.requiredTag
      have hrest := ih (h.concat hp.2.1 hp.2.2)
      rw [List.append_cons]
      exact ⟨hrest.1.trans hp.1, hp.2.1.trans hrest.2.1, hrest.2.2⟩

/-! ## From a list of rules -/

/-- The entries of a book are the given rules, and no two tags share a name. -/
structure Holds (b : RuleBook) (rules : List PolicyRule) : Prop where
  nodup : b.tagNames.Nodup
  entry : ∀ rule, rule ∈ rules →
    ∃ entry, b.rule? rule.name = some entry ∧ Numbers b.tagNames entry rule
  rule : ∀ name entry, b.rule? name = some entry →
    ∃ rule, rule ∈ rules ∧ rule.name = name ∧ Numbers b.tagNames entry rule

/-- A rule is taken in unless its name is taken. -/
theorem add_spec {b : RuleBook} {done : List PolicyRule} {rule : PolicyRule}
    (h : Holds b done) (new : b.rule? rule.name = none) :
    ∃ b', b.add rule = .ok b' ∧ Holds b' (done ++ [rule]) := by
  have hreq := internRequired_spec (Collects.nil b.tagNames) rule.preconditions
  have htag := intern_spec (b.internRequired .empty rule.preconditions).2 rule.tag
  have grown := hreq.2.1.trans htag.2.1
  have hentries := htag.1.trans hreq.1
  have hnew : Numbers ((b.internRequired .empty rule.preconditions).2.intern rule.tag).2.tagNames
      ⟨rule.name, rule.action, ((b.internRequired .empty rule.preconditions).2.intern rule.tag).1,
        (b.internRequired .empty rule.preconditions).1⟩ rule :=
    ⟨rfl, htag.2.2, by simpa using hreq.2.2.grow htag.2.1⟩
  let numbered := ((b.internRequired .empty rule.preconditions).2.intern rule.tag).2
  refine ⟨{ numbered with entries := numbered.entries.insert rule.name _ },
    by rw [add, new]; rfl, grown.nodup h.nodup, ?_, ?_⟩
  · intro r hr
    simp only [numbered, rule?, hentries, OrdMap.find?_insert]
    by_cases hn : r.name = rule.name
    · rcases List.mem_append.mp hr with hr | hr
      · obtain ⟨entry, he, -⟩ := h.entry r hr
        rw [hn, new] at he
        cases he
      · rw [if_pos hn, List.mem_singleton.mp hr]
        exact ⟨_, rfl, hnew⟩
    · rw [if_neg hn]
      rcases List.mem_append.mp hr with hr | hr
      · obtain ⟨entry, he, hnum⟩ := h.entry r hr
        exact ⟨entry, he, hnum.grow grown⟩
      · exact absurd (congrArg _ (List.mem_singleton.mp hr)) hn
  · intro name entry he
    simp only [numbered, rule?, hentries, OrdMap.find?_insert] at he
    by_cases hn : name = rule.name
    · rw [if_pos hn, Option.some.injEq] at he
      exact ⟨rule, by simp, hn.symm, he ▸ hnew⟩
    · rw [if_neg hn] at he
      obtain ⟨r, hr, hrn, hnum⟩ := h.rule name entry he
      exact ⟨r, by simp [hr], hrn, hnum.grow grown⟩

theorem Holds.nil : Holds {} [] where
  nodup := List.nodup_nil
  entry rule h := absurd h (by simp)
  rule name entry h := by simp [rule?] at h

theorem holds_ofRules {rules : List PolicyRule} {b : RuleBook} (h : ofRules rules = .ok b) :
    Holds b rules := by
  apply Outcome.foldlM_keeps (fun done b => Holds b done) Holds.nil _ h
  intro done rule b b' _ hold hadd
  cases hn : b.rule? rule.name with
  | some entry => simp [add, hn] at hadd
  | none =>
      obtain ⟨b'', hb, hold'⟩ := add_spec hold hn
      rw [hb] at hadd
      cases hadd
      exact hold'

theorem ofRules_total {rules : List PolicyRule} (distinct : (rules.map (·.name)).Nodup) :
    ∃ b, ofRules rules = .ok b ∧ Holds b rules := by
  apply Outcome.foldlM_total (fun done b => Holds b done) Holds.nil
  intro done rule b hnext hold
  apply add_spec hold
  cases hn : b.rule? rule.name with
  | none => rfl
  | some entry =>
      obtain ⟨other, hother, hname, -⟩ := hold.rule rule.name entry hn
      have hsub : ((done ++ [rule]).map (·.name)).Nodup :=
        distinct.sublist (hnext.sublist.map _)
      rw [List.map_append, List.nodup_append] at hsub
      exact absurd hname (hsub.2.2 _ (List.mem_map_of_mem hother) _ (by simp))

end RuleBook

end TagFlow
