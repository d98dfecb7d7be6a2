import TagFlow.Proofs.Flow.Sweep
import TagFlow.Proofs.Label.Alike
import TagFlow.Proofs.Policy.Exact

/-! # The order of evaluation and the order of declaration

Without loops, and where no conditional transform lies on the way, labels are what one
evaluation of each operation gives, made in any order in which an operation comes after those
that feed it. So they do not depend on the order in which the operations are declared, up to
the numbers that tags get when the rules are compiled.
-/

namespace TagFlow

open Compile Worklist TagNames

/-- No conditional transform feeds the operation, directly or through others, or is it. -/
def Sql.Unconditional (rules : List PolicyRule) (m : Module) (o : Operation) : Prop :=
  ∀ q, q ∈ m.operations → Relation.ReflTransGen m.Feeds q.id o.id → ¬ Sql.Conditional rules q

/-! ## Two rule sets that treat an operation alike -/

section

variable {names names' : List String} {o : Operation} {inputs inputs' : List Label}
  {l l' : Label} {t : Treatment} {authored : PolicyRule}

theorem Treatment.Fires.alike (distinct' : names'.Nodup)
    (hin : List.Forall₂ (Label.Alike names names') inputs inputs')
    (h : Treatment.Fires names o inputs authored) : Treatment.Fires names' o inputs' authored := by
  obtain ⟨roles, hroles, met⟩ := h
  refine ⟨roles, hroles, ?_⟩
  intro p hp
  obtain ⟨position, s, i, tag, hposition, hl, htag, hmem⟩ := met p hp
  obtain ⟨l', hl', alike⟩ := Outcome.getElem?_of_forall₂ hin hl
  obtain ⟨s', i', rfl, -, hi⟩ := alike.of_known
  obtain ⟨tag', htag', hmem'⟩ := hi.number? distinct' htag hmem
  exact ⟨position, s', i', tag', hposition, hl', htag', hmem'⟩

theorem Treatment.Gives.alike (distinct : names.Nodup) (distinct' : names'.Nodup)
    (hin : List.Forall₂ (Label.Alike names names') inputs inputs')
    (h : t.Gives names o inputs l) (h' : t.Gives names' o inputs' l') :
    Label.Alike names names' l l' := by
  cases t with
  | plain =>
      rw [show l = Label.default inputs from h, show l' = Label.default inputs' from h']
      exact Label.Alike.default hin
  | merge kind direct =>
      exact (Label.Alike.merge distinct distinct' hin (Label.Alike.default hin)).of_ok h h'
  | rule authored =>
      obtain ⟨v, tag, hv, htag, hcases⟩ := h
      obtain ⟨v', tag', hv', htag', hcases'⟩ := h'
      obtain ⟨w, hw, alike⟩ := Outcome.getElem?_of_forall₂ hin hv
      rw [hv', Option.some.injEq] at hw
      subst hw
      have back : List.Forall₂ (Label.Alike names' names) inputs' inputs :=
        hin.flip.imp fun _ _ => Label.Alike.symm
      rcases hcases with ⟨fires, rfl⟩ | ⟨waits, rfl⟩
      · rcases hcases' with ⟨-, rfl⟩ | ⟨waits', -⟩
        · exact alike.change distinct distinct' _ htag htag'
        · exact absurd (fires.alike distinct' hin) waits'
      · rcases hcases' with ⟨fires', -⟩ | ⟨-, rfl⟩
        · exact absurd (fires'.alike distinct back) waits
        · exact alike

end

theorem forall₂_first {R : Label → Label → Prop} {d d' l l' : Label} (hd : R d d') (hl : R l l')
    (n : Nat) :
    List.Forall₂ R ((List.replicate n d).set 0 l) ((List.replicate n d').set 0 l') := by
  cases n with
  | zero => exact .nil
  | succ n =>
      rw [List.replicate_succ, List.replicate_succ, List.set_cons_zero, List.set_cons_zero]
      refine .cons hl ?_
      induction n with
      | zero => exact .nil
      | succ n ih => exact .cons hd ih

theorem Compile.Treats.transfer_alike {r r' : RuleSet} {o : Operation} {t : Treatment}
    (distinct : r.tagNames.Nodup) (distinct' : r'.tagNames.Nodup) (h : Treats r o t)
    (h' : Treats r' o t) {inputs inputs' outs outs' : List Label}
    (hin : List.Forall₂ (Label.Alike r.tagNames r'.tagNames) inputs inputs')
    (hlen : inputs.length = o.inputs.length) (houts : r.transfer o inputs = .ok outs)
    (houts' : r'.transfer o inputs' = .ok outs') :
    List.Forall₂ (Label.Alike r.tagNames r'.tagNames) outs outs' := by
  have suits := h.suits hlen houts
  obtain ⟨l, gives, ht⟩ := h.transfer suits hlen
  obtain ⟨l', gives', ht'⟩ := h'.transfer suits (hin.length_eq ▸ hlen)
  rw [houts, Except.ok.injEq] at ht
  rw [houts', Except.ok.injEq] at ht'
  rw [ht, ht']
  exact forall₂_first (Label.Alike.default hin) (gives.alike distinct distinct' hin gives')
    o.outputCount

/-! ## Exact labels solve the analysis -/

section

variable {rules : List PolicyRule} {m : Module} {r : RuleSet} {states : States Label}

theorem Realizes.solves (realizes : Realizes rules m r) (linked : m.Linked) (acyclic : m.Acyclic)
    (h : r.labels m = .ok states) {o : Operation} (ho : o ∈ m.operations)
    (exact : ¬ Sql.Conditional rules o) : Solves r.analysis states o := by
  obtain ⟨outs, houts, hlen, hends⟩ := realizes.ends linked acyclic h ho
  have hocc : m.occurrences = m.operations := linked.flat.occurrences
  have inv := solve_invariant r.analysis_joinLaws r.analysis_ranked h
  have read : o.inputs.map (inputState r.analysis states) =
      o.inputs.map (stateOf r.analysis states) := by
    apply List.map_congr_left
    intro v hv
    unfold inputState
    cases hr : v.isResult with
    | true => rfl
    | false =>
        have hmem := RuleSet.mem_lookup (m := m) (hocc ▸ linked.distinct) (hocc ▸ ho)
        rw [stateOf_of_find? (inv.seeded o hmem v hv hr)]
        rfl
  refine ⟨outs, by rw [read]; exact houts, hlen, ?_⟩
  intro i s hs
  rcases hends i s hs with hfind | ⟨late, -⟩
  · exact hfind
  · exact absurd late exact

/-- Any sweep in dependency order finds the labels where nothing is conditional. -/
theorem Realizes.sweep_eq (realizes : Realizes rules m r) (linked : m.Linked)
    (acyclic : m.Acyclic) (h : r.labels m = .ok states) {order : List Operation}
    (horder : m.DependencyOrder order) :
    ∃ swept, sweep r.analysis order = .ok swept ∧
      ∀ o, o ∈ m.operations → Sql.Unconditional rules m o → ∀ v, v ∈ o.outputs →
        swept.find? v = states.find? v := by
  have total := realizes.totalOn (realizes.suits linked acyclic h)
  obtain ⟨swept, hswept, solves⟩ := sweep_solves linked.distinct acyclic total horder
  refine ⟨swept, hswept, ?_⟩
  intro o ho unconditional v hv
  obtain ⟨s, s', hs, hs', same⟩ := solves_related (R := Eq) linked rfl
    (by
      intro o _ inputs inputs' outs outs' hin _ houts houts'
      rw [List.forall₂_eq_eq_eq] at hin ⊢
      rw [hin, houts', Except.ok.injEq] at houts
      exact houts.symm)
    (acyclic.wellFounded.apply o.id)
    (fun q hq way =>
      ⟨solves q hq, realizes.solves linked acyclic h hq (unconditional q hq way)⟩)
    o ho rfl v hv
  rw [hs, hs', same]

theorem Realizes.labels_alike {m' : Module} {r' : RuleSet} {states' : States Label}
    (realizes : Realizes rules m r) (realizes' : Realizes rules m' r')
    (reordered : m'.operations.Perm m.operations) (linked : m.Linked) (acyclic : m.Acyclic)
    (h : r.labels m = .ok states) (h' : r'.labels m' = .ok states') {o : Operation}
    (ho : o ∈ m.operations) (unconditional : Sql.Unconditional rules m o) {v : Value}
    (hv : v ∈ o.outputs) :
    ∃ l l', states.find? v = some l ∧ states'.find? v = some l' ∧
      Label.Alike r.tagNames r'.tagNames l l' := by
  have mem : ∀ q, q ∈ m.operations → q ∈ m'.operations := fun q => reordered.mem_iff.mpr
  apply solves_related (a := r.analysis) (b := r'.analysis) linked Label.alike_untagged _
    (acyclic.wellFounded.apply o.id) _ o ho rfl v hv
  · intro q hq inputs inputs' outs outs' hin hlen houts houts'
    obtain ⟨t, assigned⟩ := Treatment.exists_assigned rules m q
    exact Treats.transfer_alike realizes.nodup realizes'.nodup (realizes.treats q hq t assigned)
      (realizes'.treats q (mem q hq) t (assigned.perm reordered linked.distinct)) hin hlen houts
      houts'
  · intro q hq way
    have exact := unconditional q hq way
    exact ⟨realizes.solves linked acyclic h hq exact, realizes'.solves (linked.perm reordered)
      (acyclic.perm reordered) h' (mem q hq) exact⟩

theorem Askable.reordered {m' : Module} {seeds : List String} (askable : Askable rules m)
    (realizes : Realizes rules m r) (hrules : (rules.map (·.name)).Nodup) (hseeds : seeds.Nodup)
    (reordered : m'.operations.Perm m.operations) (linked : m.Linked) (acyclic : m.Acyclic)
    (h : r.labels m = .ok states) :
    ∃ r' states', compile rules m' seeds = .ok r' ∧ r'.labels m' = .ok states' ∧
      Realizes rules m' r' := by
  have linked' := linked.perm reordered
  obtain ⟨r', hr', realizes'⟩ := compile_of_askable hrules hseeds linked'.distinct
    (askable.perm reordered linked.distinct)
  have suits' : ∀ o, o ∈ m'.operations → ∀ t, Treatment.Assigned rules m' o t → t.Suits o := by
    intro o ho t assigned
    exact realizes.suits linked acyclic h o (reordered.mem_iff.mp ho) t
      (assigned.perm reordered.symm linked'.distinct)
  obtain ⟨states', hstates'⟩ := solve_total r'.analysis_joinLaws (realizes'.totalOn suits')
  have hocc : m'.occurrences = m'.operations := linked'.flat.occurrences
  exact ⟨r', states', hr', by rw [RuleSet.labels, FlowGraph.ofModule, hocc]; exact hstates',
    realizes'⟩

end

/-- Over a linked module without loops, for which compiling and labelling return: every output
has exactly the label that its operation computes from the labels of its inputs, except that a
conditional transform may pass on the label of the transformed value instead. Where no
conditional transform lies on the way, one evaluation of each operation in any dependency order,
of which there is one, gives the same labels, and so does the module in any other order of its
operations, by the names of the tags. -/
theorem labels_exact_unless_conditional {rules : List PolicyRule} {m : Module}
    {seeds : List String} {r : RuleSet} {states : States Label} (linked : m.Linked)
    (acyclic : m.Acyclic) (hcompile : compile rules m seeds = .ok r)
    (hlabels : r.labels m = .ok states) :
    (∀ o, o ∈ m.operations → ∃ outs,
      r.transfer o (o.inputs.map (stateOf r.analysis states)) = .ok outs ∧
        outs.length = o.outputCount ∧
        ∀ (i : Nat) (s : Label), outs[i]? = some s → states.find? (.result o.id i) = some s ∨
          Sql.Conditional rules o ∧ i = 0 ∧
            ∃ v, o.inputs[0]? = some v ∧ states.find? (.result o.id 0) = states.find? v) ∧
    (∃ order, m.DependencyOrder order) ∧
    (∀ order, m.DependencyOrder order → ∃ swept, sweep r.analysis order = .ok swept ∧
      ∀ o, o ∈ m.operations → Sql.Unconditional rules m o → ∀ v, v ∈ o.outputs →
        swept.find? v = states.find? v) ∧
    ∀ m' : Module, m'.operations.Perm m.operations → ∃ r' states',
      compile rules m' seeds = .ok r' ∧ r'.labels m' = .ok states' ∧
        ∀ o, o ∈ m.operations → Sql.Unconditional rules m o → ∀ v, v ∈ o.outputs →
          ∃ l l', states.find? v = some l ∧ states'.find? v = some l' ∧
            Label.Alike r.tagNames r'.tagNames l l' := by
  obtain ⟨hrules, hseeds, askable, realizes⟩ := compile_eq_ok linked.distinct hcompile
  refine ⟨fun o ho => realizes.ends linked acyclic hlabels ho, acyclic.exists_dependencyOrder,
    fun order horder => realizes.sweep_eq linked acyclic hlabels horder, ?_⟩
  intro m' reordered
  obtain ⟨r', states', hr', hstates', realizes'⟩ :=
    askable.reordered realizes hrules hseeds reordered linked acyclic hlabels
  refine ⟨r', states', hr', hstates', ?_⟩
  intro o ho unconditional v hv
  exact realizes.labels_alike realizes' reordered linked acyclic hlabels hstates' ho unconditional
    hv

/-! ## A release that comes too early -/

namespace Early

/-- The secret arrives before the review of it. -/
def release : Operation :=
  .standalone 4 Sql.tagTransform [(Sql.ruleName, .text "release"), ("reviewer", .integer 1)]
    [.result 1 0, .result 3 0]

def stamp : Operation :=
  .standalone 8 Sql.tagTransform [(Sql.ruleName, .text "stamp"), ("reviewer", .integer 1)]
    [.result 1 0, .result 6 0]

def operations : List Operation :=
  [.standalone 0 Sql.literal [] [],
    .standalone 1 Sql.tagTransform [(Sql.ruleName, .text "classify")] [.result 0 0],
    .standalone 2 Sql.tagTransform [(Sql.ruleName, .text "vouch")] [.result 0 0],
    .standalone 3 Sql.tagTransform [(Sql.ruleName, .text "review")] [.result 2 0],
    release,
    .standalone 5 Sql.output [] [.result 4 0],
    .standalone 6 Sql.merge [(Sql.controlStart, .integer 2)] [.result 2 0, .result 3 0],
    .standalone 7 Sql.tagTransform [(Sql.ruleName, .text Sql.unionRule)] [.result 6 0],
    stamp]

def root : Module := ⟨0, [⟨0, none, .empty, .empty, .empty, operations⟩]⟩

/-- Only what leads to the release and from there to the output. -/
def small : Module := ⟨0, [⟨0, none, .empty, .empty, .empty, operations.take 6⟩]⟩

def backwards : Module := ⟨0, [⟨0, none, .empty, .empty, .empty, operations.reverse⟩]⟩

def rules : List PolicyRule :=
  [⟨"classify", .addConfidentiality, "secret", []⟩, ⟨"vouch", .addIntegrity, "vouched", []⟩,
    ⟨"review", .addIntegrity, "reviewed", []⟩,
    ⟨"release", .removeConfidentiality, "secret", [⟨"reviewer", "reviewed"⟩]⟩,
    ⟨"stamp", .addConfidentiality, "draft", [⟨"reviewer", "reviewed"⟩]⟩]

theorem linked_acyclic : root.Linked ∧ root.Acyclic :=
  Module.linked_acyclic_of_rank id (by decide) (by unfold Module.Flat; decide) (by decide)

theorem small_linked_acyclic : small.Linked ∧ small.Acyclic :=
  Module.linked_acyclic_of_rank id (by decide) (by unfold Module.Flat; decide) (by decide)

theorem stamp_unconditional : Sql.Unconditional rules root stamp := by
  have closed : ∀ o, o ∈ root.operations → ∀ v, v ∈ o.inputs → ∀ a, a ∈ [4, 5] →
      v.operation? = some a → o.id ∈ [4, 5] := by decide
  have only : ∀ q, q ∈ root.operations → Sql.Conditional rules q → q.id = 4 := by decide +kernel
  intro q hq way conditional
  rw [only q hq conditional] at way
  have stays : ∀ b, Relation.ReflTransGen root.Feeds 4 b → b ∈ [4, 5] := by
    intro b reached
    induction reached with
    | refl => decide
    | tail _ feeds ih =>
        obtain ⟨o, ho, rfl, index, hv⟩ := feeds
        exact closed o ho _ hv _ ih rfl
  exact absurd (stays stamp.id way) (by decide)

/-- The stamp has exactly the label that it computes, in both orders. -/
theorem labels_exact_unless_conditional_stamp :
    root.Linked ∧ root.Acyclic ∧ backwards.operations.Perm root.operations ∧
      Sql.Unconditional rules root stamp ∧
      ∃ r states, compile rules root ["reviewed"] = .ok r ∧ r.labels root = .ok states ∧
        (∃ l, r.transfer stamp (stamp.inputs.map (stateOf r.analysis states)) = .ok [l] ∧
          states.find? (.result 8 0) = some l) ∧
        (∀ order, root.DependencyOrder order → ∃ swept, sweep r.analysis order = .ok swept ∧
          swept.find? (.result 8 0) = states.find? (.result 8 0)) ∧
        ∃ r' states', compile rules backwards ["reviewed"] = .ok r' ∧
          r'.labels backwards = .ok states' ∧
            ∃ l l', states.find? (.result 8 0) = some l ∧ states'.find? (.result 8 0) = some l' ∧
              Label.Alike r.tagNames r'.tagNames l l' := by
  have mem : stamp ∈ root.operations := List.mem_of_getElem? (i := 8) rfl
  have reordered : backwards.operations.Perm root.operations := by
    simp only [backwards, root, Module.operations, List.flatMap_cons, List.flatMap_nil,
      List.append_nil]
    exact List.reverse_perm operations
  have returns : ∃ r, compile rules root ["reviewed"] = .ok r ∧
      ∃ states, r.labels root = .ok states ∧ states.contains (.result 8 0) = true := by
    decide +kernel
  obtain ⟨r, hr, states, hstates, -⟩ := returns
  obtain ⟨ends, -, sweeps, orders⟩ :=
    labels_exact_unless_conditional linked_acyclic.1 linked_acyclic.2 hr hstates
  obtain ⟨r', states', hr', hstates', alike⟩ := orders backwards reordered
  have output : Value.result 8 0 ∈ stamp.outputs := by decide
  refine ⟨linked_acyclic.1, linked_acyclic.2, reordered, stamp_unconditional, r, states, hr,
    hstates, ?_, ?_, r', states', hr', hstates',
    alike stamp mem stamp_unconditional _ output⟩
  · obtain ⟨outs, houts, hlen, hends⟩ := ends stamp mem
    obtain ⟨l, rfl⟩ : ∃ l, outs = [l] := List.length_eq_one_iff.mp hlen
    refine ⟨l, houts, ?_⟩
    rcases hends 0 l rfl with hfind | ⟨late, -⟩
    · exact hfind
    · exact absurd late (stamp_unconditional stamp mem .refl)
  · intro order horder
    obtain ⟨swept, hswept, hfind⟩ := sweeps order horder
    exact ⟨swept, hswept, hfind stamp mem stamp_unconditional _ output⟩

/-- The release keeps the secret, although on the labels that its inputs have in the end it
gives none; so the module fails the check. -/
theorem early_release_keeps_secret :
    small.Linked ∧ small.Acyclic ∧ release ∈ small.operations ∧
      ∃ r, compile rules small [] = .ok r ∧ ∃ states, r.labels small = .ok states ∧
        r.transfer release (release.inputs.map (stateOf r.analysis states)) =
          .ok [.ofTags [] []] ∧
        states.find? (.result 4 0) = some (.ofTags [0] []) ∧ r.tagNames[0]? = some "secret" ∧
          Egress.check r [Sql.output] small = .ok false := by
  have mem : release ∈ small.operations := List.mem_of_getElem? (i := 4) rfl
  exact ⟨small_linked_acyclic.1, small_linked_acyclic.2, mem, by decide +kernel⟩

end Early

end TagFlow
