import Mathlib.Data.List.Forall2
import Mathlib.Data.List.Nodup
import TagFlow.Proofs.Label.Known
import TagFlow.Proofs.Scenario.Declaring

/-! # The operations of a lowered scenario

The operations of a program are those of its scenario, in order, with the ids they were
declared under. So ids are distinct, no operation has an implementation, and a result that
an operation reads belongs to an operation of the program that has such an output.
-/

namespace TagFlow

namespace Scope

theorem isResult_find? {s : Scope} (outside : Outside s) {inside : Option String}
    {reference : Reference} {v : Value} (h : s.find? inside reference = .ok (some v))
    (hv : v.isResult = true) : ∃ name, s.results.find? name = some v := by
  have argument : ∀ owner input, (do return (← s.block owner).find? input) =
      (.ok (some v) : Except Error (Option Value)) → False := by
    intro owner input h
    obtain ⟨inputs, hin, h⟩ := Outcome.bind_eq_ok.mp h
    unfold block at hin
    cases hf : s.arguments.find? owner with
    | none => simp [hf] at hin
    | some found =>
        rw [hf] at hin
        cases hin
        injection h with h
        rw [outside owner _ input v hf h] at hv
        cases hv
  cases reference with
  | any =>
      cases h
      cases hv
  | result name =>
      injection h with h
      exact ⟨name, h⟩
  | stored name =>
      injection h with h
      obtain ⟨id, -, rfl⟩ := Option.map_eq_some_iff.mp h
      cases hv
  | argument owner input =>
      cases owner with
      | some owner => exact (argument owner input h).elim
      | none =>
          cases inside with
          | none => cases h
          | some owner => exact (argument owner input h).elim
  | constant number =>
      cases h
      cases hv

theorem isResult_resolve {s : Scope} (outside : Outside s) {inside : Option String}
    {place : Place} {text : String} {v : Value} (h : s.resolve inside place text = .ok v)
    (hv : v.isResult = true) : ∃ name, s.results.find? name = some v := by
  unfold resolve at h
  cases hp : Reference.parse? text with
  | none => simp [hp] at h
  | some reference =>
      rw [hp] at h
      obtain ⟨found, hf, h⟩ := Outcome.bind_eq_ok.mp h
      cases found with
      | none => cases h
      | some w =>
          cases h
          exact isResult_find? outside hf hv

end Scope

namespace Scenario.Build

open Scope

/-- What an operation has from its declaration and its scope. -/
structure Lowers (s : Scope) (d : OperationDecl × OperationId) (o : Operation) : Prop where
  id : o.id = d.2
  body : o.body = none
  outputs : d.1.results.length ≤ o.outputCount
  reads : ∀ v, v ∈ o.inputs → v.isResult = true → ∃ name, s.results.find? name = some v

theorem toOperation_lowers {s : Scope} (outside : Outside s) {owner : String} {index : Nat}
    {d : OperationDecl × OperationId} {o : Operation}
    (h : toOperation s owner index d.1 d.2 = .ok o) : Lowers s d o := by
  unfold toOperation at h
  simp only at h
  cases hop : s.workspace.operator? d.1.operator with
  | none => simp [hop] at h
  | some operator =>
      rw [hop] at h
      simp only at h
      split at h
      · cases h
      · rename_i hcount
        obtain ⟨attributes, -, h⟩ := Outcome.bind_eq_ok.mp h
        obtain ⟨inputs, hin, h⟩ := Outcome.bind_eq_ok.mp h
        cases h
        refine ⟨rfl, rfl, Nat.le_of_not_lt hcount, ?_⟩
        intro v hv hr
        obtain ⟨input, -, hinput⟩ := Outcome.exists_left_of_forall₂ (Outcome.mapM_eq_ok.mp hin) hv
        cases input with
        | constant number =>
            cases hinput
            cases hr
        | reference text => exact isResult_resolve outside hinput hr

/-- The parent of an operation does not matter here. -/
theorem Lowers.push {s : Scope} {d : OperationDecl × OperationId} {o : Operation}
    (h : Lowers s d o) (parent : Option BlockId) : Lowers s d { o with parent } :=
  ⟨h.id, h.body, h.outputs, h.reads⟩

theorem fillOperations_lowers {s : Scope} (outside : Outside s) {owner : String} {index : Nat}
    {b b' : Block} {ds : List (OperationDecl × OperationId)}
    (h : fillOperations s owner index b ds = .ok b') :
    ∃ ops, b'.operations = b.operations ++ ops ∧ List.Forall₂ (Lowers s) ds ops := by
  induction ds generalizing b index with
  | nil =>
      cases h
      exact ⟨[], by simp, .nil⟩
  | cons d rest ih =>
      obtain ⟨o, ho, h⟩ := Outcome.bind_eq_ok.mp h
      obtain ⟨ops, hops, hall⟩ := ih h
      refine ⟨{ o with parent := some b.id } :: ops, ?_, ?_⟩
      · rw [hops]
        simp [Block.push]
      · exact .cons ((toOperation_lowers outside ho).push _) hall

theorem bindOutput_operations {s : Scope} {d : BlockDecl} {b b' : Block}
    {binding : String × String} (h : bindOutput s d b binding = .ok b') :
    b'.operations = b.operations := by
  unfold bindOutput at h
  split at h
  · obtain ⟨value, -, h⟩ := Outcome.bind_eq_ok.mp h
    rw [orFault_eq_ok] at h
    unfold Block.bind at h
    split at h
    · cases h
      rfl
    · cases h
  · cases h

theorem push_operations {m m' : Module} {b : Block} (h : m.push b = .ok m') :
    m'.operations = m.operations ++ b.operations := by
  unfold Module.push at h
  split at h
  · cases h
  · cases h
    simp [Module.operations]

theorem fillBlock_lowers {s : Scope} (outside : Outside s) {m m' : Module}
    {d : BlockDecl × Draft} (hempty : d.2.block.operations = [])
    (h : fillBlock s m d = .ok m') :
    ∃ ops, m'.operations = m.operations ++ ops ∧ List.Forall₂ (Lowers s) (pairs d) ops := by
  obtain ⟨filled, hfill, h⟩ := Outcome.bind_eq_ok.mp h
  obtain ⟨bound, hbind, h⟩ := Outcome.bind_eq_ok.mp h
  rw [orError_eq_ok] at hfill
  rw [orFault_eq_ok] at h
  obtain ⟨ops, hops, hall⟩ := fillOperations_lowers outside hfill
  have hbound := Outcome.foldlM_keeps (fun _ (b : Block) => b.operations = filled.operations) rfl
    (fun _ _ _ _ _ inv hb => (bindOutput_operations hb).trans inv) hbind
  refine ⟨ops, ?_, hall⟩
  rw [push_operations h, hbound, hops, hempty, List.nil_append]

end Scenario.Build

/-! ## Programs -/

open Scope Scenario.Build in
theorem Scenario.program_linked {s : Scenario} {p : Program} (h : s.program = .ok p) :
    p.root.Linked := by
  obtain ⟨w, -, h⟩ := Outcome.bind_eq_ok.mp h
  obtain ⟨⟨drafts, scope⟩, hdecl, h⟩ := Outcome.bind_eq_ok.mp h
  obtain ⟨root, hroot, h⟩ := Outcome.bind_eq_ok.mp h
  obtain ⟨inputs, -, h⟩ := Outcome.bind_eq_ok.mp h
  obtain ⟨w', -, h⟩ := Outcome.bind_eq_ok.mp h
  cases h
  obtain ⟨hempty, declares, houtside⟩ := declareBlocks_spec hdecl
  have outside : Outside { scope with workspace := scope.workspace.newModule.2 } := by
    apply houtside
    intro owner inputs name v hf
    simp at hf
  have lowers := Outcome.foldlM_keeps
    (fun done (m : Module) => List.Forall₂
      (Lowers { scope with workspace := scope.workspace.newModule.2 }) (done.flatMap pairs)
      m.operations)
    .nil (by
      intro done d m m' hd inv hm
      obtain ⟨ops, hops, hall⟩ :=
        fillBlock_lowers outside (hempty d.2 (List.of_mem_zip hd).2) hm
      rw [hops, List.flatMap_append, List.flatMap_singleton]
      exact List.rel_append inv hall) hroot
  have hids : ((s.blocks.zip drafts).flatMap pairs).map (·.2) = root.operations.map (·.id) := by
    rw [← List.forall₂_eq_eq_eq, List.forall₂_map_left_iff, List.forall₂_map_right_iff]
    exact lowers.imp fun _ _ hd => hd.id.symm
  constructor
  case distinct =>
    rw [← hids, declares.ids]
    exact List.nodup_range'
  case flat =>
    intro o ho
    obtain ⟨d, -, hd⟩ := Outcome.exists_left_of_forall₂ lowers ho
    exact hd.body
  case reads =>
    intro o ho id index hin
    obtain ⟨d, -, hd⟩ := Outcome.exists_left_of_forall₂ lowers ho
    obtain ⟨name, hname⟩ := hd.reads _ hin rfl
    rcases declares.results name _ hname with hnone | ⟨e, he, i, hi, heq⟩
    · simp at hnone
    · cases heq
      obtain ⟨p, hp, hep⟩ := Outcome.exists_right_of_forall₂ lowers he
      exact ⟨p, hp, hep.id, Nat.lt_of_lt_of_le hi hep.outputs⟩

end TagFlow
