import TagFlow.Proofs.Outcome
import TagFlow.Scenario.Program

/-! # Declaring the operations of a scenario

Operations get consecutive ids in the order of their declaration, over all blocks. A scope
then knows results of declared operations only, and what it knows as an input of a block is
no result.
-/

namespace TagFlow

theorem orFault_eq_ok {α : Type} {x : Except Fault α} {a : α} : orFault x = .ok a ↔ x = .ok a := by
  cases x <;> simp [orFault, Except.mapError]

theorem orError_eq_ok {α : Type} {x : Except Error α} {a : α} : orError x = .ok a ↔ x = .ok a := by
  cases x <;> simp [orError, Except.mapError]

namespace Scope

open Scenario

/-- The scope grows by operations, given with their ids. -/
structure Declares (s : Scope) (pairs : List (OperationDecl × OperationId)) (s' : Scope) :
    Prop where
  ids : pairs.map (·.2) = List.range' s.workspace.nextOperation pairs.length
  next : s'.workspace.nextOperation = s.workspace.nextOperation + pairs.length
  results : ∀ name v, s'.results.find? name = some v →
    s.results.find? name = some v ∨
      ∃ d, d ∈ pairs ∧ ∃ i : Nat, i < d.1.results.length ∧ v = .result d.2 i

/-- Inputs of blocks are no results. -/
def Outside (s : Scope) : Prop :=
  ∀ owner inputs name v, s.arguments.find? owner = some inputs → inputs.find? name = some v →
    v.isResult = false

theorem Declares.nil {s s' : Scope} (hnext : s'.workspace.nextOperation = s.workspace.nextOperation)
    (hresults : s'.results = s.results) : Declares s [] s' where
  ids := rfl
  next := hnext
  results _ _ h := .inl (hresults ▸ h)

theorem Declares.append {s₁ s₂ s₃ : Scope} {first second : List (OperationDecl × OperationId)}
    (h : Declares s₁ first s₂) (k : Declares s₂ second s₃) :
    Declares s₁ (first ++ second) s₃ where
  ids := by
    rw [List.map_append, h.ids, k.ids, h.next, List.length_append, List.range'_append_1]
  next := by
    rw [k.next, h.next, List.length_append]
    exact Nat.add_assoc _ _ _
  results name v hv := by
    rcases k.results name v hv with hv | ⟨d, hd, hi⟩
    · rcases h.results name v hv with hv | ⟨d, hd, hi⟩
      · exact .inl hv
      · exact .inr ⟨d, by simp [hd], hi⟩
    · exact .inr ⟨d, by simp [hd], hi⟩

theorem declareResults_spec {s s' : Scope} {id : OperationId} {index : Nat} {names : List String}
    (h : s.declareResults id index names = .ok s') :
    s'.workspace = s.workspace ∧ s'.arguments = s.arguments ∧
      ∀ name v, s'.results.find? name = some v →
        s.results.find? name = some v ∨
          ∃ i : Nat, i < index + names.length ∧ v = .result id i := by
  induction names generalizing s index with
  | nil =>
      cases h
      exact ⟨rfl, rfl, fun _ _ hv => .inl hv⟩
  | cons first rest ih =>
      obtain ⟨mid, hmid, h⟩ := Outcome.bind_eq_ok.mp h
      obtain ⟨hw, ha, hr⟩ := ih h
      unfold declareResult at hmid
      split at hmid
      · cases hmid
      · cases hmid
        refine ⟨hw, ha, ?_⟩
        intro name v hv
        rw [List.length_cons]
        rcases hr name v hv with hv | ⟨i, hi, hv⟩
        · rw [OrdMap.find?_insert] at hv
          split at hv
          · cases hv
            exact .inr ⟨index, by omega, rfl⟩
          · exact .inl hv
        · exact .inr ⟨i, by omega, hv⟩

theorem declareOperations_spec {s s' : Scope} {ops : List OperationDecl} {ids : List OperationId}
    (h : s.declareOperations ops = .ok (ids, s')) :
    s'.arguments = s.arguments ∧ Declares s (ops.zip ids) s' := by
  induction ops generalizing s ids with
  | nil =>
      cases h
      exact ⟨rfl, .nil rfl rfl⟩
  | cons o rest ih =>
      obtain ⟨mid, hmid, h⟩ := Outcome.bind_eq_ok.mp h
      obtain ⟨⟨ids', s''⟩, hrest, h⟩ := Outcome.bind_eq_ok.mp h
      cases h
      obtain ⟨hw, ha, hr⟩ := declareResults_spec hmid
      obtain ⟨harg, hdecl⟩ := ih hrest
      have first : Declares s [(o, s.workspace.nextOperation)] mid := by
        refine ⟨rfl, by rw [hw]; rfl, ?_⟩
        intro name v hv
        rcases hr name v hv with hv | ⟨i, hi, hv⟩
        · exact .inl hv
        · exact .inr ⟨_, List.mem_singleton_self _, i, by simpa using hi, hv⟩
      exact ⟨harg.trans ha, first.append hdecl⟩

end Scope

namespace Scenario.Build

open Scope

/-! ## Blocks -/

theorem addInput_spec {owner : String} {b b' : Block} {inputs inputs' : OrdMap String Value}
    {p : SlotDecl} (h : addInput owner (b, inputs) p = .ok (b', inputs')) :
    b'.operations = b.operations ∧
      ∀ name v, inputs'.find? name = some v →
        inputs.find? name = some v ∨ v.isResult = false := by
  unfold addInput at h
  split at h
  · cases h
  · obtain ⟨⟨value, mid⟩, hadd, h⟩ := Outcome.bind_eq_ok.mp h
    cases h
    rw [orFault_eq_ok] at hadd
    obtain ⟨⟨index, decls⟩, -, hadd⟩ := Outcome.bind_eq_ok.mp hadd
    cases hadd
    refine ⟨rfl, ?_⟩
    intro name v hv
    rw [OrdMap.find?_insert] at hv
    split at hv
    · cases hv
      exact .inr rfl
    · exact .inl hv

theorem addOutput_spec {owner : String} {b b' : Block} {p : SlotDecl}
    (h : addOutput owner b p = .ok b') : b'.operations = b.operations := by
  unfold addOutput at h
  split at h
  · cases h
  · rw [orFault_eq_ok] at h
    obtain ⟨⟨index, decls⟩, -, h⟩ := Outcome.bind_eq_ok.mp h
    cases h
    rfl

/-- A declared block has no operations yet, and the scope grows by those to come. -/
theorem declareBlock_spec {s s' : Scope} {b : BlockDecl} {draft : Draft}
    (h : declareBlock s b = .ok (draft, s')) :
    draft.block.operations = [] ∧
      Declares s (b.operations.zip draft.ids) s' ∧ (Outside s → Outside s') := by
  unfold declareBlock at h
  split at h
  · cases h
  · obtain ⟨⟨block, inputs⟩, hin, h⟩ := Outcome.bind_eq_ok.mp h
    obtain ⟨block', hout, h⟩ := Outcome.bind_eq_ok.mp h
    obtain ⟨⟨ids, s''⟩, hops, h⟩ := Outcome.bind_eq_ok.mp h
    cases h
    rw [orError_eq_ok] at hops
    obtain ⟨harg, hdecl⟩ := declareOperations_spec hops
    have hinputs := Outcome.foldlM_keeps
      (fun _ (q : Block × OrdMap String Value) => q.1.operations = [] ∧
        ∀ name v, q.2.find? name = some v → v.isResult = false)
      (by simp [Block.empty]) (by
        intro _ p q q' _ inv hq
        obtain ⟨hops, hvals⟩ := addInput_spec hq
        refine ⟨hops.trans inv.1, ?_⟩
        intro name v hv
        rcases hvals name v hv with hv | hv
        · exact inv.2 name v hv
        · exact hv) hin
    have houtputs := Outcome.foldlM_keeps (fun _ (q : Block) => q.operations = [])
      hinputs.1 (by
        intro _ p q q' _ inv hq
        exact (addOutput_spec hq).trans inv) hout
    refine ⟨houtputs, ⟨hdecl.ids, hdecl.next, hdecl.results⟩, ?_⟩
    intro outside owner found name v hfound hv
    rw [harg, OrdMap.find?_insert] at hfound
    split at hfound
    · cases hfound
      exact hinputs.2 name v hv
    · exact outside owner found name v hfound hv

/-- The operations of a block with their ids. -/
def pairs (d : BlockDecl × Draft) : List (OperationDecl × OperationId) :=
  d.1.operations.zip d.2.ids

theorem declareBlocks_spec {s s' : Scope} {blocks : List BlockDecl} {drafts : List Draft}
    (h : declareBlocks s blocks = .ok (drafts, s')) :
    (∀ d, d ∈ drafts → d.block.operations = []) ∧
      Declares s ((blocks.zip drafts).flatMap pairs) s' ∧ (Outside s → Outside s') := by
  induction blocks generalizing s drafts with
  | nil =>
      cases h
      exact ⟨by simp, .nil rfl rfl, id⟩
  | cons b rest ih =>
      obtain ⟨⟨draft, mid⟩, hfirst, h⟩ := Outcome.bind_eq_ok.mp h
      obtain ⟨⟨drafts', s''⟩, hrest, h⟩ := Outcome.bind_eq_ok.mp h
      cases h
      obtain ⟨hempty, hdecl, hout⟩ := declareBlock_spec hfirst
      obtain ⟨hempty', hdecl', hout'⟩ := ih hrest
      refine ⟨?_, hdecl.append hdecl', hout' ∘ hout⟩
      intro d hd
      rcases List.mem_cons.mp hd with rfl | hd
      · exact hempty
      · exact hempty' d hd

end Scenario.Build

end TagFlow
