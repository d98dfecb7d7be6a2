import TagFlow.Policy.Rescan
import TagFlow.Proofs.Label.Renumbered
import TagFlow.Proofs.Policy.RuleBook

/-! # Rescanning with renumbered tags

Rule books made from the same rules in another order differ only in the numbers of their tags.
Every visit then makes the same decision on both sides: the same roles are filled, and the marks of
a result change on one side when they change on the other. So the passes are as many, and they end
in marks with the same names.
-/

namespace TagFlow

open TagNames

/-! ## Rule books -/

/-- Every tag that the rule speaks of. -/
def PolicyRule.tags (rule : PolicyRule) : List String :=
  rule.preconditions.map (·.requiredTag) ++ [rule.tag]

namespace RuleBook

theorem mem_tagNames_intern {b : RuleBook} {name other : String} :
    other ∈ (b.intern name).2.tagNames ↔ other ∈ b.tagNames ∨ other = name := by
  unfold intern
  cases h : b.tag? name with
  | none => simp
  | some tag =>
      have old : name ∈ b.tagNames := List.mem_of_getElem? (getElem?_of_number? h)
      simp only [iff_self_or]
      exact fun e => e ▸ old

theorem mem_tagNames_internRequired {b : RuleBook} {required : OrdMap String TagSet}
    {preconditions : List Precondition} {other : String} :
    other ∈ (b.internRequired required preconditions).2.tagNames ↔
      other ∈ b.tagNames ∨ other ∈ preconditions.map (·.requiredTag) := by
  induction preconditions generalizing b required with
  | nil => simp [internRequired]
  | cons p rest ih => simp [internRequired, ih, mem_tagNames_intern, or_assoc]

/-- A book has the tags of its rules and no other. -/
theorem mem_tagNames_ofRules {rules : List PolicyRule} {b : RuleBook} (h : ofRules rules = .ok b)
    {name : String} : name ∈ b.tagNames ↔ ∃ rule, rule ∈ rules ∧ name ∈ rule.tags := by
  refine Outcome.foldlM_keeps
    (fun done b => name ∈ b.tagNames ↔ ∃ rule, rule ∈ done ∧ name ∈ rule.tags) (by simp) ?_ h
  intro done rule b b' _ inv hadd
  unfold add at hadd
  split at hadd
  · cases hadd
  · cases hadd
    change name ∈ ((b.internRequired .empty rule.preconditions).2.intern rule.tag).2.tagNames ↔ _
    rw [mem_tagNames_intern, mem_tagNames_internRequired, inv]
    simp [PolicyRule.tags, or_and_right, exists_or, or_assoc]

/-- The same requirement, once every tag is replaced by its name. -/
structure Entry.Alike (names names' : List String) (entry entry' : Entry) : Prop where
  action : entry.action = entry'.action
  tag : Twins names names' entry.tag entry'.tag
  required : entry.required.Related (Same names names') entry'.required

/-- The same rules over the same tags. -/
structure Alike (b b' : RuleBook) : Prop where
  nodup : b.tagNames.Nodup
  nodup' : b'.tagNames.Nodup
  length_eq : b.tagNames.length = b'.tagNames.length
  entries : b.entries.Related (Entry.Alike b.tagNames b'.tagNames) b'.entries

variable {names names' : List String}

theorem Collects.covers {required required' : OrdMap String TagSet}
    {preconditions : List Precondition} (h : Collects names required preconditions)
    (h' : Collects names' required' preconditions) {argument : String} {tags tags' : TagSet}
    (hf : required.find? argument = some tags) (hf' : required'.find? argument = some tags') :
    Covers names names' tags tags' := by
  intro tag htag
  obtain ⟨p, hp, ha, hn⟩ := (h.mem argument tags hf tag).mp htag
  obtain ⟨tag', hn'⟩ := h'.numbered p hp
  exact ⟨p.requiredTag, getElem?_of_number? hn, tag',
    (h'.mem argument tags' hf' tag').mpr ⟨p, hp, ha, hn'⟩, getElem?_of_number? hn'⟩

theorem Collects.related {required required' : OrdMap String TagSet}
    {preconditions : List Precondition} (h : Collects names required preconditions)
    (h' : Collects names' required' preconditions) :
    required.Related (Same names names') required' := by
  intro argument
  have absent : required.find? argument = none ↔ required'.find? argument = none := by
    rw [h.absent, h'.absent]
  cases hf : required.find? argument with
  | none =>
      rw [absent.mp hf]
      exact .none
  | some tags =>
      cases hf' : required'.find? argument with
      | none =>
          rw [absent.mpr hf'] at hf
          cases hf
      | some tags' => exact .some ⟨h.covers h' hf hf', h'.covers h hf' hf⟩

theorem Numbers.alike {entry entry' : Entry} {rule : PolicyRule}
    (h : Numbers names entry rule) (h' : Numbers names' entry' rule) :
    entry.Alike names names' entry' where
  action := h.action.trans h'.action.symm
  tag := ⟨rule.tag, h.tag, h'.tag⟩
  required := h.required.related h'.required

/-- The order of the rules only decides the numbers. -/
theorem alike_ofRules {rules rules' : List PolicyRule} (perm : rules.Perm rules')
    {b b' : RuleBook} (h : ofRules rules = .ok b) (h' : ofRules rules' = .ok b') :
    b.Alike b' := by
  have held := holds_ofRules h
  have held' := holds_ofRules h'
  refine ⟨held.nodup, held'.nodup, ?_, ?_⟩
  · have listed : b.tagNames.Perm b'.tagNames := by
      rw [List.perm_ext_iff_of_nodup held.nodup held'.nodup]
      intro name
      rw [mem_tagNames_ofRules h, mem_tagNames_ofRules h']
      simp only [perm.mem_iff]
    exact listed.length_eq
  · intro name
    cases hf : b.entries.find? name with
    | none =>
        cases hf' : b'.entries.find? name with
        | none => exact .none
        | some entry' =>
            obtain ⟨rule, hrule, rfl, -⟩ := held'.rule name entry' hf'
            obtain ⟨entry, hentry, -⟩ := held.entry rule (perm.mem_iff.mpr hrule)
            rw [rule?, hf] at hentry
            cases hentry
    | some entry =>
        obtain ⟨rule, hrule, rfl, numbers⟩ := held.rule name entry hf
        obtain ⟨entry', hentry', numbers'⟩ := held'.entry rule (perm.mem_iff.mp hrule)
        rw [rule?] at hentry'
        rw [hentry']
        exact .some (numbers.alike numbers')

end RuleBook

/-! ## Marks -/

namespace Rescan

structure Marks.Alike (names names' : List String) (m m' : Marks) : Prop where
  secrecy : Same names names' m.secrecy m'.secrecy
  integrity : Same names names' m.integrity m'.integrity

section

variable {names names' : List String} {m m' k k' : Marks} {marks marks' : MarkMap}

theorem Marks.alike_empty : Marks.Alike names names' {} {} :=
  ⟨Same.empty, Same.empty⟩

theorem Marks.Alike.eq_of_eq (distinct : names.Nodup) (distinct' : names'.Nodup)
    (h : m.Alike names names' m') (h' : k.Alike names names' k') (e : m = k) : m' = k' := by
  obtain ⟨s', i'⟩ := m'
  obtain ⟨t', j'⟩ := k'
  subst e
  rw [Marks.mk.injEq]
  exact ⟨h.secrecy.eq_of_eq distinct distinct' h'.secrecy rfl,
    h.integrity.eq_of_eq distinct distinct' h'.integrity rfl⟩

theorem Marks.Alike.symm (h : m.Alike names names' m') : m'.Alike names' names m :=
  ⟨h.secrecy.symm, h.integrity.symm⟩

theorem Marks.Alike.fire (distinct : names.Nodup) (distinct' : names'.Nodup)
    (h : m.Alike names names' m') {entry entry' : RuleBook.Entry}
    (hentry : entry.Alike names names' entry') :
    (fire entry m).Alike names names' (fire entry' m') := by
  obtain ⟨name, hn, hn'⟩ := hentry.tag
  unfold Rescan.fire
  rw [← hentry.action]
  cases entry.action with
  | addConfidentiality =>
      exact ⟨⟨h.secrecy.covers.insert hn hn', h.secrecy.covered.insert hn' hn⟩, h.integrity⟩
  | removeConfidentiality =>
      exact ⟨⟨h.secrecy.covers.erase distinct hn hn', h.secrecy.covered.erase distinct' hn' hn⟩,
        h.integrity⟩
  | addIntegrity =>
      exact ⟨h.secrecy, h.integrity.covers.insert hn hn', h.integrity.covered.insert hn' hn⟩

theorem secrecyOf_same (h : marks.Related (Marks.Alike names names') marks') (v : Value) :
    Same names names' (secrecyOf marks v) (secrecyOf marks' v) := by
  have hv := h v
  unfold secrecyOf
  generalize marks.find? v = found, marks'.find? v = found' at hv ⊢
  cases hv with
  | none => exact Same.empty
  | some alike => exact alike.secrecy

theorem integrityOf_same (h : marks.Related (Marks.Alike names names') marks') (v : Value) :
    Same names names' (integrityOf marks v) (integrityOf marks' v) := by
  have hv := h v
  unfold integrityOf
  generalize marks.find? v = found, marks'.find? v = found' at hv ⊢
  cases hv with
  | none => exact Same.empty
  | some alike => exact alike.integrity

theorem filled_eq (distinct : names.Nodup) (distinct' : names'.Nodup)
    (h : marks.Related (Marks.Alike names names') marks') {entry entry' : RuleBook.Entry}
    (hentry : entry.Alike names names' entry') (role : String × Value) :
    filled entry marks role = filled entry' marks' role := by
  have hv := h role.2
  have hrequired := hentry.required role.1
  unfold filled
  generalize marks.find? role.2 = found, marks'.find? role.2 = found' at hv ⊢
  generalize entry.required.find? role.1 = tags, entry'.required.find? role.1 = tags'
    at hrequired ⊢
  cases hv with
  | none => rfl
  | some alike =>
      cases hrequired with
      | none => rfl
      | some same => exact same.subset_eq distinct distinct' alike.integrity

theorem mergeMarks_alike (h : marks.Related (Marks.Alike names names') marks') (o : Operation) :
    (mergeMarks marks o).Alike names names' (mergeMarks marks' o) := by
  refine ⟨?_, Same.empty⟩
  suffices go : ∀ (vs : List Value) (acc acc' : TagSet), Same names names' acc acc' →
      Same names names' (vs.foldl (fun acc v => acc.union (secrecyOf marks v)) acc)
        (vs.foldl (fun acc v => acc.union (secrecyOf marks' v)) acc') from
    go o.inputs .empty .empty Same.empty
  intro vs
  induction vs with
  | nil => exact fun _ _ hacc => hacc
  | cons v vs ih => exact fun acc acc' hacc => ih _ _ (hacc.union (secrecyOf_same h v))

end

/-! ## Passes -/

variable {book book' : RuleBook} (alike : book.Alike book')

include alike

section

variable {marks marks' : MarkMap}
  (h : marks.Related (Marks.Alike book.tagNames book'.tagNames) marks')

include h

theorem transformMarks_alike (o : Operation) :
    Outcome.Related (Marks.Alike book.tagNames book'.tagNames) (transformMarks book marks o)
      (transformMarks book' marks' o) := by
  unfold transformMarks
  refine (Outcome.Related.refl o.transformedValue).bind fun v _ e => ?_
  subst e
  refine (Outcome.Related.refl o.ruleName).bind fun name _ e => ?_
  subst e
  split
  · exact .ok ⟨secrecyOf_same h v, Same.empty⟩
  · have hfound := alike.entries name
    unfold RuleBook.rule?
    generalize book.entries.find? name = found, book'.entries.find? name = found' at hfound ⊢
    cases hfound with
    | none => exact .error _
    | some hentry =>
        refine (Outcome.Related.refl o.roleValues).bind fun roles _ e => .ok ?_
        subst e
        have kept : Marks.Alike book.tagNames book'.tagNames
            ⟨secrecyOf marks v, integrityOf marks v⟩ ⟨secrecyOf marks' v, integrityOf marks' v⟩ :=
          ⟨secrecyOf_same h v, integrityOf_same h v⟩
        rw [funext (filled_eq alike.nodup alike.nodup' h hentry)]
        split
        · exact kept.fire alike.nodup alike.nodup' hentry
        · exact kept

theorem transfer_alike (o : Operation) :
    Outcome.Related (Option.Rel (Marks.Alike book.tagNames book'.tagNames))
      (transfer book marks o) (transfer book' marks' o) := by
  unfold transfer
  split
  · exact .ok (.some (mergeMarks_alike h o))
  · split
    · exact (transformMarks_alike alike h o).bind fun _ _ hnew => .ok (.some hnew)
    · split
      · exact .ok (.some Marks.alike_empty)
      · exact .ok .none

/-- New marks on one side are new on the other. -/
theorem find?_eq_iff {new new' : Marks} (hnew : new.Alike book.tagNames book'.tagNames new')
    (v : Value) : marks.find? v = some new ↔ marks'.find? v = some new' := by
  have hv := h v
  generalize marks.find? v = found, marks'.find? v = found' at hv ⊢
  cases hv with
  | none => simp
  | some hold =>
      rw [Option.some.injEq, Option.some.injEq]
      exact ⟨hold.eq_of_eq alike.nodup alike.nodup' hnew,
        hold.symm.eq_of_eq alike.nodup' alike.nodup hnew.symm⟩

theorem visit_alike (changed : Bool) (o : Operation) :
    Outcome.Related
      (fun s s' => s.1.Related (Marks.Alike book.tagNames book'.tagNames) s'.1 ∧ s.2 = s'.2)
      (visit book (marks, changed) o) (visit book' (marks', changed) o) := by
  unfold visit
  refine (transfer_alike alike h o).bind fun result result' hresult => ?_
  cases hresult with
  | none => exact .ok ⟨h, rfl⟩
  | some hnew =>
      simp only [find?_eq_iff alike h hnew]
      split
      · exact .ok ⟨h, rfl⟩
      · exact .ok ⟨h.insert _ hnew, rfl⟩

theorem pass_alike (m : Module) :
    Outcome.Related
      (fun s s' => s.1.Related (Marks.Alike book.tagNames book'.tagNames) s'.1 ∧ s.2 = s'.2)
      (pass book m marks) (pass book' m marks') := by
  refine Outcome.Related.foldlM_same m.operations ⟨h, rfl⟩ ?_
  rintro ⟨marks, changed⟩ ⟨marks', _⟩ o ⟨h, rfl⟩
  exact visit_alike alike h changed o

end

/-- As many passes, ending in marks with the same names. -/
structure Fixpoint.Alike (names names' : List String) (f f' : Fixpoint) : Prop where
  passes : f.passes = f'.passes
  marks : f.marks.Related (Marks.Alike names names') f'.marks

theorem run_alike (m : Module) (limit : Nat) {f f' : Fixpoint}
    (h : f.Alike book.tagNames book'.tagNames f') :
    Outcome.Related (Option.Rel (Fixpoint.Alike book.tagNames book'.tagNames))
      (run book m limit f) (run book' m limit f') := by
  induction limit generalizing f f' with
  | zero => exact .ok .none
  | succ limit ih =>
      unfold run
      refine (pass_alike alike h.marks m).bind ?_
      rintro ⟨marks, changed⟩ ⟨marks', _⟩ ⟨hmarks, rfl⟩
      have next : Fixpoint.Alike book.tagNames book'.tagNames ⟨marks, f.passes + 1⟩
          ⟨marks', f'.passes + 1⟩ := ⟨congrArg (· + 1) h.passes, hmarks⟩
      cases changed with
      | true => exact ih next
      | false => exact .ok (.some next)

theorem fixpoint_alike (m : Module) :
    Outcome.Related (Option.Rel (Fixpoint.Alike book.tagNames book'.tagNames))
      (fixpoint book m) (fixpoint book' m) := by
  unfold fixpoint passLimit
  rw [alike.length_eq]
  exact run_alike alike m _ ⟨rfl, OrdMap.Related.empty⟩

theorem check_eq (m : Module) : check book m = check book' m := by
  refine Outcome.Related.eq ((fixpoint_alike alike m).bind fun result result' hresult => .ok ?_)
  cases hresult with
  | none => rfl
  | @some f f' h =>
      have same : ∀ v, (secrecyOf f.marks v).isEmpty = (secrecyOf f'.marks v).isEmpty := fun v =>
        (secrecyOf_same h.marks v).isEmpty_eq alike.nodup alike.nodup'
      simp only [Option.map_some, complies, same]

end Rescan

end TagFlow
