import TagFlow.Policy.Egress
import TagFlow.Proofs.Flow.Lockstep
import TagFlow.Proofs.Label.Alike

/-! # Rule sets that differ only in the numbers of their tags

Such rule sets have the same actions, and the same steps for them once every tag is replaced by its
name. Their analyses run in lockstep, so labels come out alike and the verdicts at egress agree.
What makes this work is that the names on either side are distinct: tests for membership, inclusion
and equality then give the same answer on both sides.
-/

namespace TagFlow

namespace TagNames

/-- The tags have one name. -/
def Twins (names names' : List String) (tag tag' : Tag) : Prop :=
  ∃ name, number? names name = some tag ∧ number? names' name = some tag'

variable {names names' more more' : List String} {a a' b b' : TagSet} {tag tag' : Tag}

theorem Twins.symm (h : Twins names names' tag tag') : Twins names' names tag' tag := by
  obtain ⟨name, hn, hn'⟩ := h
  exact ⟨name, hn', hn⟩

theorem Twins.grow (h : Twins names names' tag tag') (grown : Grows names more)
    (grown' : Grows names' more') : Twins more more' tag tag' := by
  obtain ⟨name, hn, hn'⟩ := h
  exact ⟨name, number?_of_isPrefix grown.isPrefix hn, number?_of_isPrefix grown'.isPrefix hn'⟩

/-! ## Tests on sets with the same names -/

section

variable (distinct : names.Nodup) (distinct' : names'.Nodup)

include distinct distinct'

theorem Same.exists_twin (h : Same names names' a a') (htag : tag ∈ a) :
    ∃ tag', tag' ∈ a' ∧ Twins names names' tag tag' := by
  obtain ⟨name, hname, tag', htag', hname'⟩ := h.covers tag htag
  exact ⟨tag', htag', name, number?_of_getElem? distinct hname, number?_of_getElem? distinct' hname'⟩

omit distinct in
theorem Same.mem_twin (h : Same names names' a a') (twins : Twins names names' tag tag')
    (htag : tag ∈ a) : tag' ∈ a' := by
  obtain ⟨name, hn, hn'⟩ := twins
  obtain ⟨other, hother, hmem⟩ := h.number? distinct' hn htag
  rw [hn', Option.some.injEq] at hother
  exact hother ▸ hmem

theorem Same.contains_eq (h : Same names names' a a') (twins : Twins names names' tag tag') :
    a.contains tag = a'.contains tag' := by
  rw [Bool.eq_iff_iff, OrdSet.contains_iff, OrdSet.contains_iff]
  exact ⟨h.mem_twin distinct' twins, h.symm.mem_twin distinct twins.symm⟩

theorem Same.isEmpty_eq (h : Same names names' a a') : a.isEmpty = a'.isEmpty := by
  rw [Bool.eq_iff_iff, OrdSet.isEmpty_iff, OrdSet.isEmpty_iff]
  constructor
  · intro none tag' htag'
    obtain ⟨tag, htag, -⟩ := h.symm.exists_twin distinct' distinct htag'
    exact none tag htag
  · intro none tag htag
    obtain ⟨tag', htag', -⟩ := h.exists_twin distinct distinct' htag
    exact none tag' htag'

theorem Same.subset_of_subset (h : Same names names' a a') (k : Same names names' b b')
    (sub : ∀ tag, tag ∈ a → tag ∈ b) : ∀ tag', tag' ∈ a' → tag' ∈ b' := by
  intro tag' htag'
  obtain ⟨tag, htag, twins⟩ := h.symm.exists_twin distinct' distinct htag'
  exact k.mem_twin distinct' twins.symm (sub tag htag)

theorem Same.subset_eq (h : Same names names' a a') (k : Same names names' b b') :
    a.subset b = a'.subset b' := by
  rw [Bool.eq_iff_iff, OrdSet.subset_iff, OrdSet.subset_iff]
  exact ⟨h.subset_of_subset distinct distinct' k, h.symm.subset_of_subset distinct' distinct k.symm⟩

theorem Same.eq_of_eq (h : Same names names' a a') (k : Same names names' b b') (e : a = b) :
    a' = b' := by
  apply OrdSet.ext
  intro tag'
  constructor
  · exact h.subset_of_subset distinct distinct' k (fun _ ht => e ▸ ht) tag'
  · exact k.subset_of_subset distinct distinct' h (fun _ ht => e.symm ▸ ht) tag'

end

end TagNames

open TagNames

variable {names names' more more' : List String} {inputs inputs' : List Label}

namespace Label

variable {l l' m m' : Label}

theorem Alike.eq_of_eq (distinct : names.Nodup) (distinct' : names'.Nodup)
    (h : Alike names names' l l') (k : Alike names names' m m') (e : l = m) : l' = m' := by
  subst e
  cases l with
  | unknown => rw [h.of_unknown, k.of_unknown]
  | known s i =>
      obtain ⟨s', i', rfl, hs, hi⟩ := h.of_known
      obtain ⟨t', j', rfl, ht, hj⟩ := k.of_known
      rw [hs.eq_of_eq distinct distinct' ht rfl, hi.eq_of_eq distinct distinct' hj rfl]

theorem Alike.join (distinct : names.Nodup) (distinct' : names'.Nodup)
    (h : Alike names names' l l') (k : Alike names names' m m') :
    Alike names names' (l.join m) (l'.join m') := by
  cases l with
  | unknown =>
      rw [h.of_unknown]
      exact k
  | known s i =>
      obtain ⟨s', i', rfl, hs, hi⟩ := h.of_known
      cases m with
      | unknown =>
          rw [k.of_unknown]
          exact h
      | known t j =>
          obtain ⟨t', j', rfl, ht, hj⟩ := k.of_known
          exact ⟨hs.union ht, hi.inter distinct distinct' hj⟩

end Label

/-! ## Steps -/

structure Premise.Alike (names names' : List String) (p p' : Premise) : Prop where
  input : p.input = p'.input
  tag : Twins names names' p.tag p'.tag

inductive Conclusion.Alike (names names' : List String) : Conclusion → Conclusion → Prop where
  | copy (input : Nat) : Alike names names' (.copy input) (.copy input)
  | modify (change : TagChange) {tag tag' : Tag} (twins : Twins names names' tag tag') :
      Alike names names' (.modify change tag) (.modify change tag')
  | merge (kind : MergeKind) (inputs : List Nat) :
      Alike names names' (.merge kind inputs) (.merge kind inputs)

structure InferenceRule.Alike (names names' : List String) (rule rule' : InferenceRule) :
    Prop where
  conclusion : rule.conclusion.Alike names names' rule'.conclusion
  premises : List.Forall₂ (Premise.Alike names names') rule.premises rule'.premises

theorem Premise.Alike.grow {p p' : Premise} (h : p.Alike names names' p')
    (grown : Grows names more) (grown' : Grows names' more') : p.Alike more more' p' :=
  ⟨h.input, h.tag.grow grown grown'⟩

theorem Conclusion.Alike.grow {c c' : Conclusion} (h : c.Alike names names' c')
    (grown : Grows names more) (grown' : Grows names' more') : c.Alike more more' c' := by
  cases h with
  | copy input => exact .copy input
  | modify change twins => exact .modify change (twins.grow grown grown')
  | merge kind inputs => exact .merge kind inputs

theorem InferenceRule.Alike.grow {rule rule' : InferenceRule} (h : rule.Alike names names' rule')
    (grown : Grows names more) (grown' : Grows names' more') : rule.Alike more more' rule' :=
  ⟨h.conclusion.grow grown grown', h.premises.imp fun _ _ hp => hp.grow grown grown'⟩

namespace InferenceRule

variable {current current' : Label} {rule rule' : InferenceRule}

theorem Alike.changedTag?_isSome_eq (h : rule.Alike names names' rule') :
    rule.changedTag?.isSome = rule'.changedTag?.isSome := by
  obtain ⟨c, premises⟩ := rule
  obtain ⟨c', premises'⟩ := rule'
  have hconclusion : c.Alike names names' c' := h.conclusion
  cases hconclusion <;> rfl

section

variable (distinct : names.Nodup) (distinct' : names'.Nodup)
  (hin : List.Forall₂ (Label.Alike names names') inputs inputs')

include distinct distinct' hin

theorem premisesHold_eq {premises premises' : List Premise}
    (h : List.Forall₂ (Premise.Alike names names') premises premises') :
    premisesHold inputs premises = premisesHold inputs' premises' := by
  induction h with
  | nil => rfl
  | @cons p p' rest rest' hp _ ih =>
      have hget := Outcome.getElem?_rel hin p.input
      simp only [premisesHold, hin.length_eq, ← hp.input, ih]
      generalize inputs[p.input]? = found, inputs'[p.input]? = found' at hget ⊢
      cases hget with
      | none => rfl
      | @some l l' alike =>
          cases l with
          | unknown => rw [alike.of_unknown]
          | known s i =>
              obtain ⟨s', i', rfl, -, hi⟩ := alike.of_known
              simp only [hi.contains_eq distinct distinct' hp.tag]

theorem conclude_alike (hcurrent : Label.Alike names names' current current')
    {c c' : Conclusion} (h : c.Alike names names' c') :
    Outcome.Related (Label.Alike names names') (conclude inputs current c)
      (conclude inputs' current' c') := by
  cases h with
  | copy index =>
      have hget := Outcome.getElem?_rel hin index
      simp only [conclude, hin.length_eq]
      generalize inputs[index]? = found, inputs'[index]? = found' at hget ⊢
      cases hget with
      | none => exact .error _
      | some alike => exact .ok alike
  | modify change twins =>
      obtain ⟨name, hn, hn'⟩ := twins
      exact .ok (hcurrent.change distinct distinct' change hn hn')
  | merge kind positions => exact Label.Alike.merge distinct distinct' hin hcurrent

theorem apply_alike (hcurrent : Label.Alike names names' current current')
    (h : rule.Alike names names' rule') :
    Outcome.Related (Label.Alike names names') (apply inputs current rule)
      (apply inputs' current' rule') := by
  unfold apply
  rw [premisesHold_eq distinct distinct' hin h.premises]
  refine (Outcome.Related.refl _).bind fun holds _ e => ?_
  rw [← e]
  split
  · exact conclude_alike distinct distinct' hin hcurrent h.conclusion
  · exact .ok hcurrent

end

end InferenceRule

/-! ## Rule sets -/

namespace RuleSet

abbrev OutputsAlike (names names' : List String) : OutputRules → OutputRules → Prop :=
  OrdMap.Related (List.Forall₂ (InferenceRule.Alike names names'))

/-- The same rules, once every tag is replaced by its name. -/
structure Alike (r r' : RuleSet) : Prop where
  nodup : r.tagNames.Nodup
  nodup' : r'.tagNames.Nodup
  actions : r.actions = r'.actions
  rules : r.rules.Related (OutputsAlike r.tagNames r'.tagNames) r'.rules

variable {r r' : RuleSet}

theorem Alike.refine_alike (h : r.Alike r')
    (hin : List.Forall₂ (Label.Alike r.tagNames r'.tagNames) inputs inputs')
    {results results' : List Label}
    (hresults : List.Forall₂ (Label.Alike r.tagNames r'.tagNames) results results')
    {steps steps' : List InferenceRule}
    (hsteps : List.Forall₂ (InferenceRule.Alike r.tagNames r'.tagNames) steps steps')
    (action : String) (o : Operation) (index : Nat) :
    Outcome.Related (List.Forall₂ (Label.Alike r.tagNames r'.tagNames))
      (refine action o inputs results index steps)
      (refine action o inputs' results' index steps') := by
  unfold refine
  split
  · have stepped := Outcome.Related.foldlM hsteps (Label.Alike.default hin)
      fun _ _ _ _ => InferenceRule.apply_alike h.nodup h.nodup' hin
    exact stepped.bind fun _ _ hl => .ok (Outcome.forall₂_set hresults hl index)
  · exact .error _

theorem Alike.transfer_alike (h : r.Alike r') (o : Operation)
    (hin : List.Forall₂ (Label.Alike r.tagNames r'.tagNames) inputs inputs') :
    Outcome.Related (List.Forall₂ (Label.Alike r.tagNames r'.tagNames)) (r.transfer o inputs)
      (r'.transfer o inputs') := by
  have plain := Outcome.forall₂_replicate (Label.Alike.default hin) o.outputCount
  unfold transfer
  rw [← h.actions]
  cases r.actions.find? o.id with
  | none => exact .ok plain
  | some action =>
      have hfound := h.rules action
      simp only
      generalize r.rules.find? action = found, r'.rules.find? action = found' at hfound ⊢
      cases hfound with
      | none => exact .error _
      | some outputs =>
          refine Outcome.Related.foldlM outputs.entries plain ?_
          rintro results results' ⟨index, steps⟩ ⟨_, steps'⟩ hresults ⟨rfl, hsteps⟩
          exact h.refine_alike hin hresults hsteps action o index

theorem Alike.length_changedTags_eq (h : r.Alike r') :
    r.changedTags.length = r'.changedTags.length := by
  unfold changedTags
  refine Outcome.length_flatMap_eq ?_ h.rules.entries
  rintro ⟨action, outputs⟩ ⟨action', outputs'⟩ houtputs
  refine Outcome.length_flatMap_eq ?_ houtputs.2.entries
  rintro ⟨index, steps⟩ ⟨index', steps'⟩ ⟨-, hsteps⟩
  simp only [List.length_filterMap_eq_countP] at hsteps ⊢
  induction hsteps with
  | nil => rfl
  | cons hstep _ ih =>
      rw [List.countP_cons, List.countP_cons, ih, hstep.changedTag?_isSome_eq]

theorem Alike.analysis_mirrors (h : r.Alike r') :
    Analysis.Mirrors (Label.Alike r.tagNames r'.tagNames) r.analysis r'.analysis where
  bottom := trivial
  initial := Label.alike_untagged
  height := by simp only [analysis, h.length_changedTags_eq]
  join hx hy := hx.join h.nodup h.nodup' hy
  oneToOne hx hy := ⟨hx.eq_of_eq h.nodup h.nodup' hy, hx.symm.eq_of_eq h.nodup' h.nodup hy.symm⟩
  transfer o _ _ hin := h.transfer_alike o hin

theorem Alike.labels_alike (h : r.Alike r') (m : Module) :
    Outcome.Related (OrdMap.Related (Label.Alike r.tagNames r'.tagNames)) (r.labels m)
      (r'.labels m) :=
  Worklist.solve_mirrors h.analysis_mirrors (.ofModule m)

end RuleSet

/-! ## Egress -/

namespace Egress

variable {labels labels' : States Label}

theorem harmless_eq (distinct : names.Nodup) (distinct' : names'.Nodup)
    (h : labels.Related (Label.Alike names names') labels') (v : Value) :
    harmless labels v = harmless labels' v := by
  have hv := h v
  unfold harmless
  generalize labels.find? v = found, labels'.find? v = found' at hv ⊢
  cases hv with
  | none => rfl
  | @some l l' alike =>
      cases l with
      | unknown => rw [alike.of_unknown]
      | known s i =>
          obtain ⟨s', i', rfl, hs, -⟩ := alike.of_known
          exact hs.isEmpty_eq distinct distinct'

theorem check_eq {r r' : RuleSet} (h : r.Alike r') (egress : List String) (m : Module) :
    check r egress m = check r' egress m := by
  refine Outcome.Related.eq ((h.labels_alike m).bind fun labels labels' alike => .ok ?_)
  have same : harmless labels = harmless labels' :=
    funext (harmless_eq h.nodup h.nodup' alike)
  unfold complies
  rw [same]

end Egress

end TagFlow
