import TagFlow.Proofs.Label.TagNames
import TagFlow.Proofs.Label.Transfer
import TagFlow.Proofs.Related

/-! # Labels that differ only in the numbers of their tags

Two rule sets may number the same tags differently. Labels are alike when both are unknown or
when their secrecy and integrity have the same names. Everything that is computed from labels
keeps them alike, because a name has at most one number on either side.
-/

namespace TagFlow

namespace TagNames

variable {names names' : List String} {a a' b b' : TagSet}

theorem Covers.union (h : Covers names names' a a') (k : Covers names names' b b') :
    Covers names names' (a.union b) (a'.union b') := by
  intro tag htag
  rcases OrdSet.mem_union.mp htag with htag | htag
  · obtain ⟨name, hname, tag', htag', hname'⟩ := h tag htag
    exact ⟨name, hname, tag', OrdSet.mem_union.mpr (.inl htag'), hname'⟩
  · obtain ⟨name, hname, tag', htag', hname'⟩ := k tag htag
    exact ⟨name, hname, tag', OrdSet.mem_union.mpr (.inr htag'), hname'⟩

/-- The tags of one name in the two sets on the right are the same tag. -/
theorem Covers.inter (distinct : names'.Nodup) (h : Covers names names' a a')
    (k : Covers names names' b b') : Covers names names' (a.inter b) (a'.inter b') := by
  intro tag htag
  obtain ⟨ha, hb⟩ := OrdSet.mem_inter.mp htag
  obtain ⟨name, hname, tag', htag', hname'⟩ := h tag ha
  obtain ⟨other, hother, tag'', htag'', hother'⟩ := k tag hb
  rw [hname, Option.some.injEq] at hother
  subst hother
  have hlt : tag' < names'.length := (List.getElem?_eq_some_iff.mp hname').1
  have hsame : tag' = tag'' := (List.getElem?_inj hlt distinct).mp (hname'.trans hother'.symm)
  exact ⟨name, hname, tag', OrdSet.mem_inter.mpr ⟨htag', hsame ▸ htag''⟩, hname'⟩

/-- The sets have the same names. -/
structure Same (names names' : List String) (tags tags' : TagSet) : Prop where
  covers : Covers names names' tags tags'
  covered : Covers names' names tags' tags

theorem Same.symm (h : Same names names' a a') : Same names' names a' a :=
  ⟨h.covered, h.covers⟩

theorem Same.empty : Same names names' .empty .empty :=
  ⟨Covers.empty, Covers.empty⟩

theorem Same.union (h : Same names names' a a') (k : Same names names' b b') :
    Same names names' (a.union b) (a'.union b') :=
  ⟨h.covers.union k.covers, h.covered.union k.covered⟩

theorem Same.inter (distinct : names.Nodup) (distinct' : names'.Nodup)
    (h : Same names names' a a') (k : Same names names' b b') :
    Same names names' (a.inter b) (a'.inter b') :=
  ⟨h.covers.inter distinct' k.covers, h.covered.inter distinct k.covered⟩

/-- A name that has a number in the one set has one in the other. -/
theorem Same.number? (distinct' : names'.Nodup) (h : Same names names' a a') {name : String}
    {tag : Tag} (hn : number? names name = some tag) (htag : tag ∈ a) :
    ∃ tag', TagNames.number? names' name = some tag' ∧ tag' ∈ a' := by
  obtain ⟨other, hother, tag', htag', hother'⟩ := h.covers tag htag
  rw [getElem?_of_number? hn, Option.some.injEq] at hother
  subst hother
  exact ⟨tag', number?_of_getElem? distinct' hother', htag'⟩

end TagNames

open TagNames

namespace Label

/-- Both labels are unknown, or they have the same secrecy and integrity by name. -/
def Alike (names names' : List String) : Label → Label → Prop
  | unknown, unknown => True
  | known s i, known s' i' => Same names names' s s' ∧ Same names names' i i'
  | _, _ => False

variable {names names' : List String} {l l' m m' : Label} {inputs inputs' : List Label}

theorem Alike.of_known {s i : TagSet} (h : Alike names names' (known s i) l') :
    ∃ s' i', l' = known s' i' ∧ Same names names' s s' ∧ Same names names' i i' := by
  cases l' with
  | unknown => exact absurd h id
  | known s' i' => exact ⟨s', i', rfl, h⟩

theorem Alike.of_unknown (h : Alike names names' unknown l') : l' = unknown := by
  cases l' with
  | unknown => rfl
  | known s' i' => exact absurd h id

theorem Alike.symm (h : Alike names names' l l') : Alike names' names l' l := by
  cases l with
  | unknown =>
      rw [h.of_unknown]
      trivial
  | known s i =>
      obtain ⟨s', i', rfl, hs, hi⟩ := h.of_known
      exact ⟨hs.symm, hi.symm⟩

theorem alike_untagged : Alike names names' untagged untagged :=
  ⟨Same.empty, Same.empty⟩

theorem Alike.isUnknown_eq (h : Alike names names' l l') : l.isUnknown = l'.isUnknown := by
  cases l with
  | unknown => rw [h.of_unknown]
  | known s i =>
      obtain ⟨s', i', rfl, -⟩ := h.of_known
      rfl

/-! ## What is computed from them -/

theorem Alike.carry (h : Alike names names' l l') (k : Alike names names' m m') :
    Alike names names' (l.carry m) (l'.carry m') := by
  cases l with
  | unknown =>
      rw [h.of_unknown]
      trivial
  | known s i =>
      obtain ⟨s', i', rfl, hs, -⟩ := h.of_known
      cases m with
      | unknown =>
          rw [k.of_unknown]
          trivial
      | known t j =>
          obtain ⟨t', j', rfl, ht, -⟩ := k.of_known
          exact ⟨hs.union ht, Same.empty⟩

theorem Alike.default (h : List.Forall₂ (Alike names names') inputs inputs') :
    Alike names names' (default inputs) (default inputs') := by
  suffices go : ∀ acc acc' : Label, Alike names names' acc acc' →
      Alike names names' (inputs.foldl Label.carry acc) (inputs'.foldl Label.carry acc') from
    go untagged untagged alike_untagged
  induction h with
  | nil => exact fun _ _ hacc => hacc
  | cons hl _ ih => exact fun acc acc' hacc => ih _ _ (hacc.carry hl)

theorem any_isUnknown_eq (h : List.Forall₂ (Alike names names') inputs inputs') :
    inputs.any isUnknown = inputs'.any isUnknown := by
  induction h with
  | nil => rfl
  | cons hl _ ih => rw [List.any_cons, List.any_cons, hl.isUnknown_eq, ih]

theorem Alike.change (distinct : names.Nodup) (distinct' : names'.Nodup)
    (h : Alike names names' l l') (c : TagChange) {name : String} {tag tag' : Tag}
    (hn : number? names name = some tag) (hn' : number? names' name = some tag') :
    Alike names names' (l.change c tag) (l'.change c tag') := by
  cases l with
  | unknown =>
      rw [h.of_unknown, change_unknown, change_unknown]
      trivial
  | known s i =>
      obtain ⟨s', i', rfl, hs, hi⟩ := h.of_known
      cases c with
      | addSecrecy => exact ⟨⟨hs.covers.insert hn hn', hs.covered.insert hn' hn⟩, hi⟩
      | removeSecrecy =>
          exact ⟨⟨hs.covers.erase distinct hn hn', hs.covered.erase distinct' hn' hn⟩, hi⟩
      | addIntegrity => exact ⟨hs, hi.covers.insert hn hn', hi.covered.insert hn' hn⟩
      | removeIntegrity =>
          exact ⟨hs, hi.covers.erase distinct hn hn', hi.covered.erase distinct' hn' hn⟩

theorem mergedIntegrity_alike (distinct : names.Nodup) (distinct' : names'.Nodup)
    (h : List.Forall₂ (Alike names names') inputs inputs') (kind : MergeKind)
    (positions : List Nat) {merged merged' : Option TagSet}
    (hmerged : Option.Rel (Same names names') merged merged') :
    Outcome.Related (Option.Rel (Same names names')) (mergedIntegrity kind inputs positions merged)
      (mergedIntegrity kind inputs' positions merged') := by
  induction positions generalizing merged merged' with
  | nil => exact .ok hmerged
  | cons index rest ih =>
      have hget := Outcome.getElem?_rel h index
      simp only [mergedIntegrity, h.length_eq]
      generalize inputs[index]? = found, inputs'[index]? = found' at hget ⊢
      cases hget with
      | none => exact .error _
      | @some l l' alike =>
          cases l with
          | unknown =>
              rw [alike.of_unknown]
              exact .error _
          | known s i =>
              obtain ⟨s', i', rfl, -, hi⟩ := alike.of_known
              refine ih ?_
              cases hmerged with
              | none => exact .some hi
              | some hacc =>
                  cases kind with
                  | union => exact .some (hacc.union hi)
                  | intersect => exact .some (hacc.inter distinct distinct' hi)

theorem Alike.withIntegrity (h : Alike names names' l l') {i i' : TagSet}
    (hi : Same names names' i i') :
    Alike names names' (l.withIntegrity i) (l'.withIntegrity i') := by
  cases l with
  | unknown =>
      rw [h.of_unknown]
      trivial
  | known s j =>
      obtain ⟨s', j', rfl, hs, -⟩ := h.of_known
      exact ⟨hs, hi⟩

theorem Alike.merge (distinct : names.Nodup) (distinct' : names'.Nodup)
    (h : List.Forall₂ (Alike names names') inputs inputs') {current current' : Label}
    (hcurrent : Alike names names' current current') {kind : MergeKind} {positions : List Nat} :
    Outcome.Related (Alike names names') (merge kind positions inputs current)
      (merge kind positions inputs' current') := by
  unfold Label.merge
  rw [hcurrent.isUnknown_eq, any_isUnknown_eq h]
  split
  · exact .ok trivial
  · refine (mergedIntegrity_alike distinct distinct' h kind positions .none).bind ?_
    intro merged merged' hmerged
    exact .ok (hcurrent.withIntegrity (Outcome.rel_getD hmerged Same.empty))

end Label

end TagFlow
