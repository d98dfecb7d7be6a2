import TagFlow.Proofs.Label.Known
import TagFlow.Proofs.Policy.Compile
import TagFlow.Proofs.Policy.Guards

/-! # Labels against marks

A label and the marks of a rescan number their tags differently, so they are compared by
name. A label is stricter than marks when it has all their secrecy and no integrity beyond
theirs. One evaluation of an operation keeps this from inputs to result: a compiled rule
fires only where the rule of the book does, and a rule that adds secrecy fires in both.
-/

namespace TagFlow

open TagNames Rescan Compile

/-! ## Stricter labels -/

/-- The label is known, has all the secrecy and no integrity beyond the given one. -/
def Stricter (r : RuleSet) (book : RuleBook) (l : Label) (marks : Marks) : Prop :=
  ∃ s i, l = .known s i ∧ Covers book.tagNames r.tagNames marks.secrecy s ∧
    Covers r.tagNames book.tagNames i marks.integrity

variable {r : RuleSet} {book : RuleBook} {l : Label} {marks : MarkMap}

theorem Stricter.of_join {given : Marks} (h : Stricter r book l given) {upper : Label}
    (hjoin : upper.join l = upper) : Stricter r book upper given := by
  obtain ⟨s, i, rfl, hsecrecy, hintegrity⟩ := h
  cases upper with
  | unknown => cases hjoin
  | known s' i' =>
      have hle := Label.join_eq_left_iff.mp hjoin
      exact ⟨s', i', rfl, hsecrecy.mono (fun _ ht => ht) hle.1,
        hintegrity.mono hle.2 fun _ ht => ht⟩

theorem stricter_of_absent {v : Value} (h : marks.find? v = none) :
    Stricter r book .untagged (marksOf marks v) := by
  have hsecrecy : secrecyOf marks v = .empty := by simp [secrecyOf, h]
  refine ⟨.empty, .empty, rfl, ?_, Covers.empty⟩
  show Covers _ _ (secrecyOf marks v) _
  rw [hsecrecy]
  exact Covers.empty

/-! ## Operations without an action -/

/-- The default label is stricter than any marks without integrity whose secrecy comes from
the inputs. -/
theorem stricter_default {label : Value → Label} {inputs : List Value}
    (h : ∀ v, v ∈ inputs → Stricter r book (label v) (marksOf marks v)) {secrecy : TagSet}
    (hsecrecy : ∀ tag, tag ∈ secrecy → ∃ v, v ∈ inputs ∧ tag ∈ secrecyOf marks v) :
    Stricter r book (Label.default (inputs.map label)) { secrecy := secrecy } := by
  have known : ¬ Label.unknown ∈ inputs.map label := by
    intro hu
    obtain ⟨v, hv, hlabel⟩ := List.mem_map.mp hu
    obtain ⟨s, i, hl, -⟩ := h v hv
    rw [hl] at hlabel
    cases hlabel
  obtain ⟨merged, hdefault, hmem⟩ := Label.default_of_known known
  refine ⟨merged, .empty, hdefault, ?_, Covers.empty⟩
  intro tag htag
  obtain ⟨v, hv, htagv⟩ := hsecrecy tag htag
  obtain ⟨s, i, hl, hcovers, -⟩ := h v hv
  obtain ⟨name, hname, tag', htag', hname'⟩ := hcovers tag htagv
  have hin : Label.known s i ∈ inputs.map label := hl ▸ List.mem_map_of_mem hv
  exact ⟨name, hname, tag', (hmem tag').mpr ⟨s, i, hin, htag'⟩, hname'⟩

/-! ## Tag transforms -/

section Transform

variable {entry : RuleBook.Entry} {rule : PolicyRule} {o : Operation} {label : Value → Label}

/-- Where the preconditions hold of the labels, the roles are filled in the marks. -/
theorem all_filled_of_met (distinct : book.tagNames.Nodup)
    (numbers : RuleBook.Numbers book.tagNames entry rule) {roles : List (String × Nat)}
    {values : List (String × Value)} (hroles : o.roles = .ok roles)
    (hvalues : o.roleValues = .ok values)
    (known : ∀ role, role ∈ roles → role.1 ∈ rule.preconditions.map (·.argument))
    (h : ∀ v, v ∈ o.inputs → Stricter r book (label v) (marksOf marks v))
    (met : ∀ p, p ∈ rule.preconditions → Met roles r.tagNames (o.inputs.map label) p) :
    values.all (filled entry marks) = true := by
  obtain ⟨values', hvalues', hread⟩ := Operation.roleValues_total hroles
  rw [hvalues, Except.ok.injEq] at hvalues'
  subst hvalues'
  have carries : ∀ role, role ∈ values → ∀ p, p ∈ rule.preconditions → p.argument = role.1 →
      ∀ tag, number? book.tagNames p.requiredTag = some tag → tag ∈ integrityOf marks role.2 := by
    intro role hrole p hp hargument tag htag
    obtain ⟨place, hplace, hname, hvalue⟩ := Outcome.exists_left_of_forall₂ hread hrole
    obtain ⟨position, s, i, tag', hposition, hlabel, htag', hmem⟩ := met p hp
    have hsame : roles.lookup role.1 = some place.2 :=
      (Operation.lookup_roles hroles).mpr (hname ▸ hplace)
    rw [hargument, hsame, Option.some.injEq] at hposition
    rw [← hposition, List.getElem?_map, hvalue, Option.map_some, Option.some.injEq] at hlabel
    obtain ⟨s', i', hl, -, hcovers⟩ := h role.2 (List.mem_of_getElem? hvalue)
    rw [hlabel] at hl
    cases hl
    obtain ⟨name, hname', t, ht, hnamed⟩ := hcovers tag' hmem
    rw [getElem?_of_number? htag', Option.some.injEq] at hname'
    have hnumber := number?_of_getElem? distinct (hname' ▸ hnamed)
    rw [htag, Option.some.injEq] at hnumber
    exact hnumber ▸ ht
  rw [List.all_eq_true]
  intro role hrole
  obtain ⟨place, hplace, hname, -⟩ := Outcome.exists_left_of_forall₂ hread hrole
  obtain ⟨p, hp, hargument⟩ := List.mem_map.mp (known place hplace)
  refine (filled_iff numbers.required).mpr ⟨⟨p, hp, hargument.trans hname.symm⟩, ?_⟩
  intro q hq hqargument
  obtain ⟨tag, htag⟩ := numbers.required.numbered q hq
  exact ⟨tag, htag, carries role hrole q hq hqargument tag htag⟩

theorem Stricter.fire {given : Marks} (h : Stricter r book l given)
    (distinct : book.tagNames.Nodup) (numbers : RuleBook.Numbers book.tagNames entry rule)
    {tag : Tag} (htag : number? r.tagNames rule.tag = some tag) :
    Stricter r book (l.change rule.action.change tag) (Rescan.fire entry given) := by
  obtain ⟨s, i, rfl, hsecrecy, hintegrity⟩ := h
  rw [Rescan.fire, numbers.action]
  cases rule.action with
  | addConfidentiality =>
      exact ⟨s.insert tag, i, rfl, hsecrecy.insert numbers.tag htag, hintegrity⟩
  | removeConfidentiality =>
      exact ⟨s.erase tag, i, rfl, hsecrecy.erase distinct numbers.tag htag, hintegrity⟩
  | addIntegrity =>
      exact ⟨s, i.insert tag, rfl, hsecrecy, hintegrity.insert htag numbers.tag⟩

theorem Stricter.fire_marks {given : Marks} (h : Stricter r book l given)
    (hadd : entry.action ≠ .addConfidentiality) :
    Stricter r book l (Rescan.fire entry given) := by
  obtain ⟨s, i, rfl, hsecrecy, hintegrity⟩ := h
  refine ⟨s, i, rfl, ?_⟩
  rw [Rescan.fire]
  cases haction : entry.action with
  | addConfidentiality => exact absurd haction hadd
  | removeConfidentiality =>
      exact ⟨hsecrecy.mono (fun t ht => (OrdSet.mem_erase.mp ht).1) fun _ ht => ht, hintegrity⟩
  | addIntegrity =>
      exact ⟨hsecrecy, hintegrity.mono (fun _ ht => ht) fun t ht => OrdSet.mem_insert.mpr (.inr ht)⟩

theorem stricter_ruleMarks (distinct : book.tagNames.Nodup)
    (numbers : RuleBook.Numbers book.tagNames entry rule) {v : Value}
    (h : Stricter r book l (marksOf marks v)) {tag : Tag}
    (htag : number? r.tagNames rule.tag = some tag) {values : List (String × Value)} {met : Bool}
    (fires : met = true → values.all (filled entry marks) = true)
    (adds : rule.action = .addConfidentiality → met = true) :
    Stricter r book (if met then l.change rule.action.change tag else l)
      (ruleMarks entry values marks v) := by
  unfold ruleMarks
  cases met with
  | true =>
      rw [if_pos rfl, if_pos (fires rfl)]
      exact h.fire distinct numbers htag
  | false =>
      have hadd : entry.action ≠ .addConfidentiality := by
        rw [numbers.action]
        intro haction
        cases adds haction
      by_cases hall : values.all (filled entry marks) = true
      · rw [if_pos hall]
        exact h.fire_marks hadd
      · rw [if_neg hall]
        exact h

end Transform

end TagFlow
