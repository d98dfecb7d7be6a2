import TagFlow.Label.Inference
import TagFlow.Policy.Rule
import TagFlow.Proofs.Ordered.Distinct

/-! # Numbering tags by name

A tag is the position of its name in a list of names that only ever grows at its end.
Names keep their numbers, and a number has one name.
-/

namespace TagFlow

namespace TagNames

def number? (names : List String) (name : String) : Option Tag :=
  names.findIdx? (· = name)

theorem getElem?_of_number? {names : List String} {name : String} {tag : Tag}
    (h : number? names name = some tag) : names[tag]? = some name :=
  Positions.getElem?_of_findIdx? h

theorem number?_of_isPrefix {names names' : List String} {name : String} {tag : Tag}
    (grown : names <+: names') (h : number? names name = some tag) :
    number? names' name = some tag := by
  obtain ⟨more, rfl⟩ := grown
  exact Positions.findIdx?_append_of_some h more

theorem not_mem_of_number? {names : List String} {name : String}
    (h : number? names name = none) : name ∉ names :=
  Positions.findIdx?_eq_none_iff.mp h

theorem number?_concat_self {names : List String} {name : String}
    (h : number? names name = none) : number? (names ++ [name]) name = some names.length :=
  Positions.findIdx?_concat_self (not_mem_of_number? h)

/-- In a list without repetitions the number of a name is its only position. -/
theorem number?_of_getElem? {names : List String} (distinct : names.Nodup) {name : String}
    {tag : Tag} (h : names[tag]? = some name) : number? names name = some tag :=
  (Positions.findIdx?_eq_some_iff distinct).mpr h

/-- Names are only added, at the end and without repetition. -/
structure Grows (names names' : List String) : Prop where
  isPrefix : names <+: names'
  nodup : names.Nodup → names'.Nodup

theorem Grows.refl (names : List String) : Grows names names :=
  ⟨List.prefix_rfl, id⟩

theorem Grows.trans {names names' names'' : List String} (h : Grows names names')
    (k : Grows names' names'') : Grows names names'' :=
  ⟨h.isPrefix.trans k.isPrefix, k.nodup ∘ h.nodup⟩

theorem grows_concat {names : List String} {name : String} (h : number? names name = none) :
    Grows names (names ++ [name]) := by
  refine ⟨List.prefix_append _ _, ?_⟩
  intro distinct
  rw [← List.concat_eq_append]
  exact distinct.concat (not_mem_of_number? h)

/-! ## Sets of tags compared by name -/

/-- Every tag of the first set has a name, and it is the name of a tag of the second set. -/
def Covers (names names' : List String) (tags tags' : TagSet) : Prop :=
  ∀ tag, tag ∈ tags → ∃ name, names[tag]? = some name ∧
    ∃ tag', tag' ∈ tags' ∧ names'[tag']? = some name

variable {names names' : List String} {tags tags' : TagSet}

theorem Covers.empty : Covers names names' .empty tags' := by
  intro tag htag
  exact absurd htag (OrdSet.not_mem_empty tag)

theorem Covers.mono {less more : TagSet} (h : Covers names names' tags tags')
    (hless : ∀ tag, tag ∈ less → tag ∈ tags) (hmore : ∀ tag, tag ∈ tags' → tag ∈ more) :
    Covers names names' less more := by
  intro tag htag
  obtain ⟨name, hname, tag', htag', hname'⟩ := h tag (hless tag htag)
  exact ⟨name, hname, tag', hmore tag' htag', hname'⟩

theorem Covers.insert {name : String} {tag tag' : Tag} (h : Covers names names' tags tags')
    (hn : number? names name = some tag) (hn' : number? names' name = some tag') :
    Covers names names' (tags.insert tag) (tags'.insert tag') := by
  intro t ht
  rcases OrdSet.mem_insert.mp ht with rfl | ht
  · exact ⟨name, getElem?_of_number? hn, tag', OrdSet.mem_insert.mpr (.inl rfl),
      getElem?_of_number? hn'⟩
  · obtain ⟨other, hother, t', ht', hother'⟩ := h t ht
    exact ⟨other, hother, t', OrdSet.mem_insert.mpr (.inr ht'), hother'⟩

/-- Taking a name out of both sets; in the first it has no second number. -/
theorem Covers.erase {name : String} {tag tag' : Tag} (h : Covers names names' tags tags')
    (distinct : names.Nodup) (hn : number? names name = some tag)
    (hn' : number? names' name = some tag') :
    Covers names names' (tags.erase tag) (tags'.erase tag') := by
  intro t ht
  obtain ⟨htags, hne⟩ := OrdSet.mem_erase.mp ht
  obtain ⟨other, hother, t', ht', hother'⟩ := h t htags
  have hne' : t' ≠ tag' := by
    intro e
    have hsame : other = name := by
      rw [e, getElem?_of_number? hn', Option.some.injEq] at hother'
      exact hother'.symm
    rw [hsame] at hother
    have hnumber := number?_of_getElem? distinct hother
    rw [hn, Option.some.injEq] at hnumber
    exact hne hnumber.symm
  exact ⟨other, hother, t', OrdSet.mem_erase.mpr ⟨ht', hne'⟩, hother'⟩

end TagNames

open TagNames

/-! ## Rule books and rule sets number alike -/

theorem RuleBook.intern_spec (b : RuleBook) (name : String) :
    (b.intern name).2.entries = b.entries ∧ Grows b.tagNames (b.intern name).2.tagNames ∧
      number? (b.intern name).2.tagNames name = some (b.intern name).1 := by
  unfold RuleBook.intern
  cases h : b.tag? name with
  | some tag => exact ⟨rfl, .refl _, h⟩
  | none => exact ⟨rfl, grows_concat h, number?_concat_self h⟩

theorem RuleSet.intern_spec (r : RuleSet) (name : String) :
    (r.intern name).2.actions = r.actions ∧ (r.intern name).2.rules = r.rules ∧
      Grows r.tagNames (r.intern name).2.tagNames ∧
        number? (r.intern name).2.tagNames name = some (r.intern name).1 := by
  unfold RuleSet.intern
  cases h : r.tag? name with
  | some tag => exact ⟨rfl, rfl, .refl _, h⟩
  | none => exact ⟨rfl, rfl, grows_concat h, number?_concat_self h⟩

end TagFlow
