import TagFlow.Proofs.Label.Transfer

/-! # Labels that only gain secrecy

A label precedes another when it is unknown, or when both are known, have the same integrity,
and the other has all its secrecy. What is computed from labels without looking at integrity
that may still be missing moves forward with them: defaults, merges and changes of one tag.
-/

namespace TagFlow

namespace Label

def Precedes : Label → Label → Prop
  | unknown, _ => True
  | known _ _, unknown => False
  | known s i, known s' i' => (∀ t, t ∈ s → t ∈ s') ∧ i = i'

theorem Precedes.refl (l : Label) : l.Precedes l := by
  cases l with
  | unknown => trivial
  | known s i => exact ⟨fun _ ht => ht, rfl⟩

theorem Precedes.trans {l m n : Label} (h : l.Precedes m) (k : m.Precedes n) : l.Precedes n := by
  cases l with
  | unknown => trivial
  | known s i =>
      cases m with
      | unknown => exact absurd h id
      | known s' i' =>
          cases n with
          | unknown => exact absurd k id
          | known s'' i'' => exact ⟨fun t ht => k.1 t (h.1 t ht), h.2.trans k.2⟩

theorem Precedes.of_known {s i : TagSet} {m : Label} (h : (known s i).Precedes m) :
    ∃ s', m = known s' i ∧ ∀ t, t ∈ s → t ∈ s' := by
  cases m with
  | unknown => exact absurd h id
  | known s' i' => exact ⟨s', by rw [h.2], h.1⟩

theorem Precedes.join_eq {l m : Label} (h : l.Precedes m) : l.join m = m := by
  cases l with
  | unknown => exact unknown_join m
  | known s i =>
      obtain ⟨s', rfl, hs⟩ := h.of_known
      rw [join_comm]
      exact join_eq_left_iff.mpr ⟨hs, fun _ ht => ht⟩

/-- Joining what is below a later label moves towards that label. -/
theorem Precedes.join_below {l m n : Label} (h : l.Precedes n) (below : n.join m = n) :
    l.Precedes (l.join m) ∧ ((l.join m).Precedes m ∨ (l.join m).Precedes n) := by
  cases l with
  | unknown => exact ⟨trivial, .inl (.refl m)⟩
  | known s i =>
      obtain ⟨s', rfl, hs⟩ := h.of_known
      cases m with
      | unknown => exact ⟨.refl _, .inr h⟩
      | known t j =>
          obtain ⟨ht, hi⟩ := join_eq_left_iff.mp below
          have hj : i = i.inter j := OrdSet.ext fun tag => by simpa using hi tag
          refine ⟨⟨fun tag htag => OrdSet.mem_union.mpr (.inl htag), hj⟩, .inr ⟨?_, hj.symm⟩⟩
          intro tag htag
          rcases OrdSet.mem_union.mp htag with htag | htag
          · exact hs tag htag
          · exact ht tag htag

/-! ## What moves along -/

theorem Precedes.carry {l l' m m' : Label} (h : l.Precedes l') (k : m.Precedes m') :
    (carry l m).Precedes (carry l' m') := by
  cases l with
  | unknown => trivial
  | known s i =>
      cases m with
      | unknown => trivial
      | known t j =>
          obtain ⟨s', rfl, hs⟩ := h.of_known
          obtain ⟨t', rfl, ht⟩ := k.of_known
          refine ⟨?_, rfl⟩
          intro tag htag
          rcases OrdSet.mem_union.mp htag with htag | htag
          · exact OrdSet.mem_union.mpr (.inl (hs tag htag))
          · exact OrdSet.mem_union.mpr (.inr (ht tag htag))

theorem Precedes.default {inputs inputs' : List Label}
    (h : List.Forall₂ Precedes inputs inputs') : (default inputs).Precedes (default inputs') := by
  suffices go : ∀ acc acc' : Label, acc.Precedes acc' →
      (inputs.foldl Label.carry acc).Precedes (inputs'.foldl Label.carry acc') from
    go untagged untagged (.refl untagged)
  induction h with
  | nil => exact fun _ _ hacc => hacc
  | cons hl _ ih => exact fun acc acc' hacc => ih _ _ (hacc.carry hl)

theorem Precedes.change {l m : Label} (h : l.Precedes m) (c : TagChange) (tag : Tag) :
    (l.change c tag).Precedes (m.change c tag) := by
  cases l with
  | unknown =>
      rw [change_unknown]
      trivial
  | known s i =>
      obtain ⟨s', rfl, hs⟩ := h.of_known
      cases c with
      | addSecrecy =>
          refine ⟨?_, rfl⟩
          intro t ht
          rcases OrdSet.mem_insert.mp ht with rfl | ht
          · exact OrdSet.mem_insert.mpr (.inl rfl)
          · exact OrdSet.mem_insert.mpr (.inr (hs t ht))
      | removeSecrecy =>
          refine ⟨?_, rfl⟩
          intro t ht
          obtain ⟨hmem, hne⟩ := OrdSet.mem_erase.mp ht
          exact OrdSet.mem_erase.mpr ⟨hs t hmem, hne⟩
      | addIntegrity => exact ⟨hs, rfl⟩
      | removeIntegrity => exact ⟨hs, rfl⟩

/-- Adding secrecy is a move forward. -/
theorem precedes_addSecrecy (l : Label) (tag : Tag) : l.Precedes (l.change .addSecrecy tag) := by
  cases l with
  | unknown => trivial
  | known s i => exact ⟨fun _ ht => OrdSet.mem_insert.mpr (.inr ht), rfl⟩

/-- Labels that are known stay known. -/
theorem known_of_forall₂ {inputs inputs' : List Label}
    (h : List.Forall₂ Precedes inputs inputs') (known : ¬ unknown ∈ inputs) :
    ¬ unknown ∈ inputs' := by
  intro hu
  obtain ⟨l, hl, hprec⟩ := Outcome.exists_left_of_forall₂ h hu
  cases l with
  | unknown => exact known hl
  | known s i => exact hprec

theorem mergedIntegrity_congr {inputs inputs' : List Label}
    (h : List.Forall₂ Precedes inputs inputs') (known : ¬ unknown ∈ inputs) (kind : MergeKind)
    (positions : List Nat) (merged : Option TagSet) :
    mergedIntegrity kind inputs positions merged = mergedIntegrity kind inputs' positions merged := by
  induction positions generalizing merged with
  | nil => rfl
  | cons index rest ih =>
      cases hl : inputs[index]? with
      | none =>
          have hlen := h.length_eq
          have hl' : inputs'[index]? = none := by
            rw [List.getElem?_eq_none_iff] at hl ⊢
            omega
          simp only [mergedIntegrity, hl, hl', hlen]
      | some l =>
          obtain ⟨l', hl', hprec⟩ := Outcome.getElem?_of_forall₂ h hl
          cases l with
          | unknown => exact absurd (List.mem_of_getElem? hl) known
          | known s i =>
              obtain ⟨s', rfl, -⟩ := hprec.of_known
              simp only [mergedIntegrity, hl, hl', integrity, bind, Except.bind]
              exact ih _

/-- A merge waits until all inputs are known, and then their integrity no longer changes. -/
theorem Precedes.merge {inputs inputs' : List Label}
    (h : List.Forall₂ Precedes inputs inputs') {current current' : Label}
    (hcurrent : current.Precedes current') {kind : MergeKind} {positions : List Nat}
    {l l' : Label} (hl : merge kind positions inputs current = .ok l)
    (hl' : merge kind positions inputs' current' = .ok l') : l.Precedes l' := by
  unfold Label.merge at hl
  split at hl
  · cases hl
    trivial
  · rename_i guard
    have known := known_of_guard guard
    have known' := known_of_forall₂ h known
    cases current with
    | unknown => exact absurd rfl guard
    | known s i =>
        obtain ⟨s', rfl, hs⟩ := hcurrent.of_known
        unfold Label.merge at hl'
        have guard' : ¬ ((Label.known s' i).isUnknown || inputs'.any isUnknown) = true := by
          rw [Bool.or_eq_true, List.any_eq_true]
          rintro (e | ⟨u, hu, e⟩)
          · cases e
          · cases u with
            | unknown => exact known' hu
            | known _ _ => cases e
        rw [if_neg guard', ← mergedIntegrity_congr h known] at hl'
        obtain ⟨merged, hm, hl⟩ := Outcome.bind_eq_ok.mp hl
        obtain ⟨merged', hm', hl'⟩ := Outcome.bind_eq_ok.mp hl'
        rw [hm, Except.ok.injEq] at hm'
        subst hm'
        cases hl
        cases hl'
        exact ⟨hs, rfl⟩

end Label

end TagFlow
