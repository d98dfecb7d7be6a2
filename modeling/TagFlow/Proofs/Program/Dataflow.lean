import Mathlib.Data.Fintype.EquivFin
import Mathlib.Data.Fintype.Sets
import TagFlow.Proofs.Program.Lookup

/-! # Dataflow between operations

One operation feeds another when the other reads one of its results. Modules are finite,
so where no operation feeds itself, directly or through others, facts can be proved along
the dataflow.
-/

namespace TagFlow

/-- Where only finitely many can be reached, every way back ends unless it meets a cycle. -/
theorem acc_of_finite {α : Type} {R : α → α → Prop} {targets : List α}
    (inside : ∀ a b, R a b → b ∈ targets) {b : α}
    (h : ∀ a, Relation.ReflTransGen R a b → ¬ Relation.TransGen R a a) : Acc R b := by
  classical
  let Inner := { a : α // a ∈ targets }
  let Before : Inner → Inner → Prop := fun a c =>
    Relation.TransGen R a.1 c.1 ∧ Relation.ReflTransGen R c.1 b
  have : Finite Inner := inferInstanceAs (Finite { a // a ∈ targets })
  have : IsTrans Inner Before := ⟨fun _ _ _ hac hcd => ⟨hac.1.trans hcd.1, hcd.2⟩⟩
  have : Std.Irrefl Before := ⟨fun a haa => h a.1 haa.2 haa.1⟩
  have inner : WellFounded Before := Finite.wellFounded_of_trans_of_irrefl Before
  have outer : ∀ a, a ∉ targets → Acc R a := by
    intro a ha
    constructor
    intro c hc
    exact absurd (inside c a hc) ha
  have within : ∀ a : Inner, Relation.ReflTransGen R a.1 b → Acc R a.1 := by
    intro a
    induction a using inner.induction with
    | _ a ih =>
        intro hab
        constructor
        intro c hca
        by_cases hin : c ∈ targets
        · exact ih ⟨c, hin⟩ ⟨.single hca, hab⟩ (hab.head hca)
        · exact outer c hin
  by_cases hin : b ∈ targets
  · exact within ⟨b, hin⟩ .refl
  · exact outer b hin

namespace Module

/-- Operation `b` of the module reads a result of operation `a`. -/
def Feeds (m : Module) (a b : OperationId) : Prop :=
  ∃ o, o ∈ m.operations ∧ o.id = b ∧ ∃ index : Nat, Value.result a index ∈ o.inputs

def Acyclic (m : Module) : Prop :=
  ∀ a, ¬ Relation.TransGen m.Feeds a a

theorem feeds_of_reads {m : Module} {o : Operation} {a : OperationId} (ho : o ∈ m.operations)
    (h : Value.default a ∈ o.inputs) : m.Feeds a o.id :=
  ⟨o, ho, rfl, 0, h⟩

/-- Every way back along the dataflow ends where none of them meets a cycle: only operations
of the module are fed, and these are finitely many. -/
theorem acc_of_no_cycle {m : Module} {b : OperationId}
    (h : ∀ a, Relation.ReflTransGen m.Feeds a b → ¬ Relation.TransGen m.Feeds a a) :
    Acc m.Feeds b := by
  have inside : ∀ a c, m.Feeds a c → c ∈ m.operations.map (·.id) := by
    intro a c ⟨o, ho, hid, _⟩
    exact hid ▸ List.mem_map_of_mem ho
  exact acc_of_finite inside h

theorem Acyclic.wellFounded {m : Module} (h : m.Acyclic) : WellFounded m.Feeds :=
  ⟨fun _ => acc_of_no_cycle fun a _ => h a⟩

/-- A numbering that grows along every read shows that there is no cycle. -/
theorem acyclic_of_rank {m : Module} (rank : OperationId → Nat)
    (h : ∀ o, o ∈ m.operations → ∀ a index, Value.result a index ∈ o.inputs → rank a < rank o.id) :
    m.Acyclic := by
  have grows : ∀ {a b}, Relation.TransGen m.Feeds a b → rank a < rank b := by
    intro a b hab
    induction hab with
    | single hb =>
        obtain ⟨o, ho, rfl, index, hi⟩ := hb
        exact h o ho a index hi
    | tail _ hb ih =>
        obtain ⟨o, ho, rfl, index, hi⟩ := hb
        exact Nat.lt_trans ih (h o ho _ index hi)
  intro a ha
  exact Nat.lt_irrefl _ (grows ha)

/-! ## Modules without implementations -/

def Flat (m : Module) : Prop :=
  ∀ o, o ∈ m.operations → o.body = none

theorem occurrencesInOperations_of_flat {ops : List Operation} (h : ∀ o, o ∈ ops → o.body = none) :
    occurrencesInOperations ops = ops := by
  induction ops with
  | nil => rfl
  | cons o rest ih =>
      have hbody := h o (by simp)
      obtain ⟨id, parent, signature, attributes, inputs, body⟩ := o
      cases hbody
      rw [occurrencesInOperations, ih fun p hp => h p (List.mem_cons_of_mem _ hp)]

theorem Flat.occurrences {m : Module} (h : m.Flat) : m.occurrences = m.operations := by
  obtain ⟨id, blocks⟩ := m
  have go : ∀ blocks : List Block, (∀ o, o ∈ blocks.flatMap Block.operations → o.body = none) →
      occurrencesInBlocks blocks = blocks.flatMap Block.operations := by
    intro blocks hflat
    induction blocks with
    | nil => rfl
    | cons b rest ih =>
        rw [List.flatMap_cons] at hflat ⊢
        obtain ⟨id, parent, inputs, outputs, results, operations⟩ := b
        rw [occurrencesInBlocks,
          occurrencesInOperations_of_flat fun o ho => hflat o (List.mem_append_left _ ho),
          ih fun o ho => hflat o (List.mem_append_right _ ho)]
  exact go blocks h

/-- Operations have distinct ids and no implementations, and they read results of each
other only where there are such outputs. -/
structure Linked (m : Module) : Prop where
  distinct : (m.operations.map (·.id)).Nodup
  flat : m.Flat
  reads : ∀ o, o ∈ m.operations → ∀ id index, Value.result id index ∈ o.inputs →
    ∃ p, p ∈ m.operations ∧ p.id = id ∧ index < p.outputCount

/-- A numbering that grows along every read of an output shows that a module is linked and
has no cycle. -/
theorem linked_acyclic_of_rank {m : Module} (rank : OperationId → Nat)
    (distinct : (m.operations.map (·.id)).Nodup) (flat : m.Flat)
    (h : ∀ o, o ∈ m.operations → ∀ v, v ∈ o.inputs → v.isResult = true →
      ∃ p, p ∈ m.operations ∧ v ∈ p.outputs ∧ rank p.id < rank o.id) : m.Linked ∧ m.Acyclic := by
  have reads : ∀ o, o ∈ m.operations → ∀ id index, Value.result id index ∈ o.inputs →
      ∃ p, p ∈ m.operations ∧ p.id = id ∧ index < p.outputCount ∧ rank id < rank o.id := by
    intro o ho id index hv
    obtain ⟨p, hp, hout, hlt⟩ := h o ho _ hv rfl
    obtain ⟨i, hi, hresult⟩ := List.mem_map.mp hout
    cases hresult
    exact ⟨p, hp, rfl, List.mem_range.mp hi, hlt⟩
  refine ⟨⟨distinct, flat, ?_⟩, acyclic_of_rank rank ?_⟩
  · intro o ho id index hv
    obtain ⟨p, hp, hid, hindex, -⟩ := reads o ho id index hv
    exact ⟨p, hp, hid, hindex⟩
  · intro o ho a index hv
    obtain ⟨p, -, -, -, hlt⟩ := reads o ho a index hv
    exact hlt

/-! ## Looking operations up -/

theorem findOperation?_eq_some_iff {m : Module} (distinct : (m.operations.map (·.id)).Nodup)
    {id : OperationId} {o : Operation} :
    m.findOperation? id = some o ↔ o ∈ m.operations ∧ o.id = id := by
  rw [findOperation?_eq]
  exact find?_reverse_key Operation.id distinct

/-! ## The order of the operations

Whatever is said of a module's operations one by one does not depend on their order. -/

section

variable {m m' : Module} (reordered : m'.operations.Perm m.operations)

include reordered

theorem feeds_perm : m'.Feeds = m.Feeds := by
  funext a b
  simp only [Feeds, reordered.mem_iff]

theorem Acyclic.perm (h : m.Acyclic) : m'.Acyclic := by
  rw [Acyclic, feeds_perm reordered]
  exact h

theorem Linked.perm (h : m.Linked) : m'.Linked where
  distinct := (reordered.map _).nodup_iff.mpr h.distinct
  flat o ho := h.flat o (reordered.mem_iff.mp ho)
  reads o ho id index hv := by
    obtain ⟨p, hp, hpid, hindex⟩ := h.reads o (reordered.mem_iff.mp ho) id index hv
    exact ⟨p, reordered.mem_iff.mpr hp, hpid, hindex⟩

theorem findOperation?_perm (distinct : (m.operations.map (·.id)).Nodup) :
    m'.findOperation? = m.findOperation? := by
  have distinct' : (m'.operations.map (·.id)).Nodup := (reordered.map _).nodup_iff.mpr distinct
  funext id
  apply Option.ext
  intro o
  rw [findOperation?_eq_some_iff distinct, findOperation?_eq_some_iff distinct', reordered.mem_iff]

end

end Module

end TagFlow
