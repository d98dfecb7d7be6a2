import TagFlow.Proofs.Flow.Upkeep
import TagFlow.Proofs.Label.Known
import TagFlow.Proofs.Label.Precedes
import TagFlow.Proofs.Policy.Outputs

/-! # Labels that are exactly what the operations compute

Labels are joined, so an operation that was evaluated too early may be left with more than
it asks for in the end. Without loops only a transform that takes secrecy away or adds
integrity under preconditions can be early: as long as its preconditions are not known to
hold it passes the transformed value on as it is, and this stays joined to what comes later.
All other operations end exactly at what they compute from their inputs.
-/

namespace TagFlow

open Compile Worklist TagNames

/-- A tag transform whose authored rule removes secrecy or adds integrity under preconditions. -/
def Sql.Conditional (rules : List PolicyRule) (o : Operation) : Prop :=
  o.operator = Sql.tagTransform ∧ ∃ rule, rule ∈ rules ∧ o.ruleName = .ok rule.name ∧
    Sql.isInternalRule rule.name = false ∧ rule.action ≠ .addConfidentiality ∧
      rule.preconditions ≠ []

instance (rules : List PolicyRule) (o : Operation) : Decidable (Sql.Conditional rules o) :=
  inferInstanceAs (Decidable (_ ∧ ∃ rule, rule ∈ rules ∧ _))

namespace Treatment

def Late : Treatment → Prop
  | rule authored => authored.action ≠ .addConfidentiality ∧ authored.preconditions ≠ []
  | _ => False

theorem Late.conditional {rules : List PolicyRule} {m : Module} {o : Operation} {t : Treatment}
    (late : t.Late) (assigned : Assigned rules m o t) : Sql.Conditional rules o := by
  cases assigned with
  | asked _ asks =>
      cases asks with
      | authored transform ready =>
          exact ⟨transform, _, List.mem_of_find?_eq_some ready.1, ready.2.1, ready.2.2.1, late⟩
      | internal => exact absurd late id
  | plain => exact absurd late id

end Treatment

/-! ## One evaluation -/

section

variable {names : List String} {o : Operation} {inputs inputs' : List Label} {l l' v : Label}
  {t : Treatment} {authored : PolicyRule}

theorem Treatment.Fires.forward (h : Treatment.Fires names o inputs authored)
    (hin : List.Forall₂ Label.Precedes inputs inputs') :
    Treatment.Fires names o inputs' authored := by
  obtain ⟨roles, hroles, met⟩ := h
  refine ⟨roles, hroles, ?_⟩
  intro p hp
  obtain ⟨position, s, i, tag, hposition, hl, htag, hmem⟩ := met p hp
  obtain ⟨l', hl', hprec⟩ := Outcome.getElem?_of_forall₂ hin hl
  obtain ⟨s', rfl, -⟩ := hprec.of_known
  exact ⟨position, s', i, tag, hposition, hl', htag, hmem⟩

theorem precedes_addConfidentiality (tag : Tag) (adds : authored.action = .addConfidentiality) :
    l.Precedes (l.change authored.action.change tag) := by
  rw [adds]
  exact Label.precedes_addSecrecy l tag

/-- As its inputs move forward, so does what an operation computes, unless it is late. -/
theorem Treatment.Gives.forward (h : t.Gives names o inputs l) (h' : t.Gives names o inputs' l')
    (roles : ∀ authored, t = .rule authored → ∃ roles, o.roles = .ok roles)
    (hin : List.Forall₂ Label.Precedes inputs inputs') :
    l.Precedes l' ∨ t.Late ∧ ∃ v, inputs'[0]? = some v ∧ l.Precedes v := by
  cases t with
  | plain =>
      rw [show l = Label.default inputs from h, show l' = Label.default inputs' from h']
      exact .inl (Label.Precedes.default hin)
  | merge kind direct => exact .inl (Label.Precedes.merge hin (Label.Precedes.default hin) h h')
  | rule authored =>
      obtain ⟨v, tag, hv, htag, hcases⟩ := h
      obtain ⟨v', tag', hv', htag', hcases'⟩ := h'
      rw [htag, Option.some.injEq] at htag'
      subst htag'
      obtain ⟨w, hw, hmoved⟩ := Outcome.getElem?_of_forall₂ hin hv
      rw [hv', Option.some.injEq] at hw
      subst hw
      rcases hcases with ⟨fires, rfl⟩ | ⟨waits, rfl⟩
      · rcases hcases' with ⟨-, rfl⟩ | ⟨waits', -⟩
        · exact .inl (hmoved.change _ tag)
        · exact absurd (fires.forward hin) waits'
      · rcases hcases' with ⟨-, rfl⟩ | ⟨-, rfl⟩
        · by_cases adds : authored.action = .addConfidentiality
          · exact .inl (hmoved.trans (precedes_addConfidentiality tag adds))
          · have guarded : authored.preconditions ≠ [] := by
              intro none
              obtain ⟨given, hgiven⟩ := roles authored rfl
              exact waits ⟨given, hgiven, by simp [none]⟩
            exact .inr ⟨⟨adds, guarded⟩, v', hv', hmoved⟩
        · exact .inl hmoved

theorem Treatment.Gives.below_of_late (late : t.Late) (h : t.Gives names o inputs l)
    (hv : inputs[0]? = some v) : v.join l = v := by
  cases t with
  | plain => exact absurd late id
  | merge => exact absurd late id
  | rule authored =>
      obtain ⟨v', tag, hv', -, hcases⟩ := h
      rw [hv, Option.some.injEq] at hv'
      subst hv'
      rcases hcases with ⟨-, rfl⟩ | ⟨-, rfl⟩
      · cases v with
        | unknown =>
            rw [Label.change_unknown]
            rfl
        | known s i =>
            cases haction : authored.action with
            | addConfidentiality => exact absurd haction late.1
            | removeConfidentiality =>
                exact Label.join_eq_left_iff.mpr
                  ⟨fun _ ht => (OrdSet.mem_erase.mp ht).1, fun _ ht => ht⟩
            | addIntegrity =>
                exact Label.join_eq_left_iff.mpr
                  ⟨fun _ ht => ht, fun _ ht => OrdSet.mem_insert.mpr (.inr ht)⟩
      · exact Label.join_self l

theorem eq_erase_or_eq {a b : TagSet} {tag : Tag} (hab : ∀ t, t ∈ a → t ∈ b)
    (hba : ∀ t, t ∈ b.erase tag → t ∈ a) : a = b.erase tag ∨ a = b := by
  by_cases htag : tag ∈ a
  · refine .inr (OrdSet.ext fun t => ⟨hab t, ?_⟩)
    intro ht
    by_cases e : t = tag
    · exact e ▸ htag
    · exact hba t (OrdSet.mem_erase.mpr ⟨ht, e⟩)
  · refine .inl (OrdSet.ext fun t => ⟨?_, hba t⟩)
    intro ht
    exact OrdSet.mem_erase.mpr ⟨hab t ht, fun e => htag (e ▸ ht)⟩

/-- Where a late transform ends: at what it computes, or at the transformed value as it is. -/
theorem Treatment.Gives.ends_of_late (late : t.Late) (h : t.Gives names o inputs l)
    (hv : inputs[0]? = some v) {s : Label} (hs : s.Precedes v) (hjoin : s.join l = s) :
    s = l ∨ s = v := by
  cases s with
  | unknown => exact .inl hjoin.symm
  | known a i =>
      obtain ⟨b, rfl, hab⟩ := hs.of_known
      cases t with
      | plain => exact absurd late id
      | merge => exact absurd late id
      | rule authored =>
          obtain ⟨v, tag, hv', -, hcases⟩ := h
          rw [hv, Option.some.injEq] at hv'
          subst hv'
          rcases hcases with ⟨-, rfl⟩ | ⟨-, rfl⟩
          · cases haction : authored.action with
            | addConfidentiality => exact absurd haction late.1
            | removeConfidentiality =>
                rw [haction] at hjoin
                rcases eq_erase_or_eq hab (Label.join_eq_left_iff.mp hjoin).1 with rfl | rfl
                · exact .inl rfl
                · exact .inr rfl
            | addIntegrity =>
                rw [haction] at hjoin
                have hba : ∀ t, t ∈ b → t ∈ a := (Label.join_eq_left_iff.mp hjoin).1
                exact .inr (congrArg (Label.known · i) (OrdSet.ext fun t => ⟨hab t, hba t⟩))
          · rw [hs.join_eq] at hjoin
            exact .inr hjoin.symm

end

/-! ## Whole runs -/

section

variable {rules : List PolicyRule} {m : Module} {r : RuleSet} {states : States Label}

/-- The label is behind what the operation computes from these inputs, or, for a late
transform, behind the transformed value. -/
def Behind (rules : List PolicyRule) (m : Module) (r : RuleSet) (o : Operation) (i : Nat)
    (inputs : List Label) (l : Label) : Prop :=
  ∃ outs s, r.transfer o inputs = .ok outs ∧ outs[i]? = some s ∧
    (l.Precedes s ∨ i = 0 ∧ (∃ t, Treatment.Assigned rules m o t ∧ t.Late) ∧
      ∃ v, inputs[0]? = some v ∧ l.Precedes v)

theorem Realizes.transfer (realizes : Realizes rules m r) {o : Operation} (ho : o ∈ m.operations)
    {t : Treatment} (assigned : Treatment.Assigned rules m o t) (suits : t.Suits o)
    {inputs : List Label} (hlen : inputs.length = o.inputs.length) :
    ∃ l, t.Gives r.tagNames o inputs l ∧ r.transfer o inputs =
      .ok ((List.replicate o.outputCount (Label.default inputs)).set 0 l) :=
  (realizes.treats o ho t assigned).transfer suits hlen

theorem Treatment.Assigned.roles {o : Operation} {t : Treatment}
    (assigned : Treatment.Assigned rules m o t) :
    ∀ authored, t = .rule authored → ∃ roles, o.roles = .ok roles := by
  intro authored ht
  subst ht
  cases assigned with
  | asked _ asks =>
      cases asks with
      | authored _ ready =>
          obtain ⟨-, -, -, roles, hroles, -⟩ := ready
          exact ⟨roles, hroles⟩

theorem Behind.moved (realizes : Realizes rules m r) {o : Operation} (ho : o ∈ m.operations)
    (suits : ∀ t, Treatment.Assigned rules m o t → t.Suits o) {i : Nat}
    {inputs inputs' : List Label} {l : Label} (hlen : inputs.length = o.inputs.length)
    (moves : List.Forall₂ Label.Precedes inputs inputs') (behind : Behind rules m r o i inputs l) :
    Behind rules m r o i inputs' l := by
  obtain ⟨outs, s, houts, hs, hcases⟩ := behind
  obtain ⟨t, assigned⟩ := Treatment.exists_assigned rules m o
  obtain ⟨first, gives, ht⟩ := realizes.transfer ho assigned (suits t assigned) hlen
  obtain ⟨first', gives', ht'⟩ := realizes.transfer ho assigned (suits t assigned)
    (moves.length_eq ▸ hlen)
  rw [ht, Except.ok.injEq] at houts
  subst houts
  obtain ⟨hi, rfl⟩ := getElem?_first.mp hs
  refine ⟨_, _, ht', getElem?_first.mpr ⟨hi, rfl⟩, ?_⟩
  rcases hcases with hl | ⟨h0, late, v, hv, hl⟩
  · by_cases h0 : i = 0
    · rw [if_pos h0] at hl ⊢
      rcases gives.forward gives' assigned.roles moves with hfirst | ⟨late, v, hv, hfirst⟩
      · exact .inl (hl.trans hfirst)
      · exact .inr ⟨h0, ⟨t, assigned, late⟩, v, hv, hl.trans hfirst⟩
    · rw [if_neg h0] at hl ⊢
      exact .inl (hl.trans (Label.Precedes.default moves))
  · obtain ⟨v', hv', hmoved⟩ := Outcome.getElem?_of_forall₂ moves hv
    exact .inr ⟨h0, late, v', hv', hl.trans hmoved⟩

theorem Behind.joined (realizes : Realizes rules m r) {o : Operation} (ho : o ∈ m.operations)
    (suits : ∀ t, Treatment.Assigned rules m o t → t.Suits o) {i : Nat}
    {inputs outs : List Label} {s l : Label} (hlen : inputs.length = o.inputs.length)
    (houts : r.transfer o inputs = .ok outs) (hs : outs[i]? = some s)
    (behind : Behind rules m r o i inputs l) :
    l.Precedes (l.join s) ∧ Behind rules m r o i inputs (l.join s) := by
  obtain ⟨outs', s', houts', hs', hcases⟩ := behind
  rw [houts, Except.ok.injEq] at houts'
  subst houts'
  rw [hs, Option.some.injEq] at hs'
  subst hs'
  rcases hcases with hl | ⟨h0, ⟨t, assigned, late⟩, v, hv, hl⟩
  · rw [hl.join_eq]
    exact ⟨hl, outs, s, houts, hs, .inl (.refl s)⟩
  · obtain ⟨first, gives, ht⟩ := realizes.transfer ho assigned (suits t assigned) hlen
    rw [houts, Except.ok.injEq] at ht
    have hfirst : s = first := by
      rw [ht] at hs
      exact (getElem?_first.mp hs).2.trans (if_pos h0)
    subst hfirst
    obtain ⟨moved, hcases⟩ := hl.join_below (gives.below_of_late late hv)
    refine ⟨moved, outs, s, houts, hs, ?_⟩
    rcases hcases with hn | hn
    · exact .inl hn
    · exact .inr ⟨h0, ⟨t, assigned, late⟩, v, hv, hn⟩

/-- Labels are only ever behind. -/
theorem Realizes.upholds (realizes : Realizes rules m r)
    (suits : ∀ o, o ∈ m.operations → ∀ t, Treatment.Assigned rules m o t → t.Suits o) :
    r.analysis.Upholds m.operations Label.Precedes (Behind rules m r) where
  refl := Label.Precedes.refl
  bottom o ho i inputs hi hlen := by
    obtain ⟨t, assigned⟩ := Treatment.exists_assigned rules m o
    obtain ⟨l, -, ht⟩ := realizes.transfer ho assigned (suits o ho t assigned) hlen
    exact ⟨_, _, ht, getElem?_first.mpr ⟨hi, rfl⟩, .inl trivial⟩
  moved o ho _ _ _ _ := Behind.moved realizes ho (suits o ho)
  joined o ho _ _ _ _ _ := Behind.joined realizes ho (suits o ho)

theorem settled_of_acyclic (linked : m.Linked) (acyclic : m.Acyclic)
    (h : r.labels m = .ok states) {o : Operation} (ho : o ∈ m.operations) :
    Settled r.analysis states o ∧
      ∀ v, v ∈ o.inputs → stateOf r.analysis states v ≠ .unknown := by
  have hocc : m.occurrences = m.operations := linked.flat.occurrences
  have known := RuleSet.inputs_known_of_acc linked h (acyclic.wellFounded.apply o.id) o ho rfl
  exact ⟨RuleSet.settled_of_known (hocc ▸ linked.distinct) h (hocc ▸ ho) known, known⟩

/-- A run that returns shows that all treatments suit their operations. -/
theorem Realizes.suits (realizes : Realizes rules m r) (linked : m.Linked) (acyclic : m.Acyclic)
    (h : r.labels m = .ok states) :
    ∀ o, o ∈ m.operations → ∀ t, Treatment.Assigned rules m o t → t.Suits o := by
  intro o ho t assigned
  obtain ⟨outs, houts, -⟩ := (settled_of_acyclic linked acyclic h ho).1
  exact (realizes.treats o ho t assigned).suits (List.length_map _) houts

theorem Realizes.behind (realizes : Realizes rules m r) (linked : m.Linked) (acyclic : m.Acyclic)
    (h : r.labels m = .ok states) {o : Operation} (ho : o ∈ m.operations) {i : Nat}
    (hi : i < o.outputCount) :
    Behind rules m r o i (o.inputs.map (stateOf r.analysis states))
      (stateOf r.analysis states (.result o.id i)) := by
  have solved : solve r.analysis (.ofOperations m.operations) = .ok states := by
    rw [← linked.flat.occurrences]
    exact h
  apply solve_within (realizes.upholds (realizes.suits linked acyclic h)) solved o _ i hi
  rw [FlowGraph.operations_eq_of_distinct linked.distinct]
  exact ho

/-- Every output ends at what its operation computes, except that a conditional transform may
pass the transformed value on as it is. -/
theorem Realizes.ends (realizes : Realizes rules m r) (linked : m.Linked) (acyclic : m.Acyclic)
    (h : r.labels m = .ok states) {o : Operation} (ho : o ∈ m.operations) :
    ∃ outs, r.transfer o (o.inputs.map (stateOf r.analysis states)) = .ok outs ∧
      outs.length = o.outputCount ∧
      ∀ (i : Nat) (s : Label), outs[i]? = some s → states.find? (.result o.id i) = some s ∨
        Sql.Conditional rules o ∧ i = 0 ∧
          ∃ v, o.inputs[0]? = some v ∧ states.find? (.result o.id 0) = states.find? v := by
  obtain ⟨⟨outs, houts, hlen, hjoin⟩, known⟩ := settled_of_acyclic linked acyclic h ho
  refine ⟨outs, houts, hlen, ?_⟩
  intro i s hs
  obtain ⟨l, hl, hle⟩ := hjoin i s hs
  have behind := realizes.behind linked acyclic h ho
    (show i < o.outputCount from hlen ▸ (List.getElem?_eq_some_iff.mp hs).1)
  rw [stateOf_of_find? hl] at behind
  obtain ⟨outs', s', houts', hs', hcases⟩ := behind
  rw [show r.transfer o _ = .ok outs from houts, Except.ok.injEq] at houts'
  subst houts'
  rw [hs, Option.some.injEq] at hs'
  subst hs'
  rcases hcases with hprec | ⟨rfl, ⟨t, assigned, late⟩, v, hv, hprec⟩
  · have hend : s = l := hprec.join_eq.symm.trans hle
    exact .inl (hend ▸ hl)
  · have suits := realizes.suits linked acyclic h o ho t assigned
    obtain ⟨first, gives, ht⟩ := realizes.transfer ho assigned suits
      (List.length_map (stateOf r.analysis states))
    rw [show r.transfer o _ = .ok outs from houts, Except.ok.injEq] at ht
    rw [ht] at hs
    have hfirst : s = first := (getElem?_first.mp hs).2
    rcases gives.ends_of_late late hv hprec (hfirst ▸ hle) with hend | hend
    · exact .inl (by rw [hl, hend, hfirst])
    · rw [List.getElem?_map, Option.map_eq_some_iff] at hv
      obtain ⟨w, hw, hstate⟩ := hv
      have hentry : states.find? w = some v :=
        find?_of_stateOf hstate (hstate ▸ known w (List.mem_of_getElem? hw))
      exact .inr ⟨late.conditional assigned, rfl, w, hw, by rw [hl, hend, hentry]⟩

end

end TagFlow
