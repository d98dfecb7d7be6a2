import TagFlow.Proofs.Scenario.Accepts
import TagFlow.Proofs.Scenario.Declaring
import TagFlow.Proofs.Scenario.Denotes

/-! # Where declared names lead

Declaring hands out ids one after the other, so an id is a position: that of an operation among all
operations, of a block among the blocks, of a storage among the storages. A scope leads every name
to the position at which it is declared, and what it finds is what the reference denotes.
-/

namespace TagFlow

open Scope

namespace Workspace

theorem next_supply {w : Workspace} {names : List String} :
    (w.supply names).nextBlock = w.nextBlock ∧
      (w.supply names).nextOperation = w.nextOperation := by
  unfold supply
  induction names generalizing w with
  | nil => exact ⟨rfl, rfl⟩
  | cons first rest ih =>
      rw [List.foldl_cons]
      refine ⟨ih.1.trans ?_, ih.2.trans ?_⟩ <;> split <;> rfl

end Workspace

namespace Scenario

/-- The slot as it is declared in a block. -/
def SlotDecl.decl (p : SlotDecl) : Decl := ⟨p.name, Build.dataType p.type⟩

/-- A storage that nothing has been written into. -/
def StorageDecl.blank (index : Nat) (d : StorageDecl) : Storage :=
  ⟨index, d.name, Build.dataType d.type, .empty⟩

namespace Build

/-! ## The workspace -/

/-- No id has been given away, and the storages are there in order. -/
structure Fresh (declared : List StorageDecl) (w : Workspace) : Prop where
  nextBlock : w.nextBlock = 0
  nextOperation : w.nextOperation = 0
  storages : w.storages = declared.mapIdx StorageDecl.blank

theorem addOperator_fresh {w w' : Workspace} {d : OperatorDecl} (h : Fresh [] w)
    (hadd : addOperator w d = .ok w') : Fresh [] w' := by
  unfold addOperator at hadd
  split at hadd
  · cases hadd
  · rw [orFault_eq_ok] at hadd
    unfold Workspace.addOperator at hadd
    split at hadd
    · cases hadd
    · cases hadd
      exact ⟨h.nextBlock, h.nextOperation, h.storages⟩

theorem addStorage_fresh {declared : List StorageDecl} {w w' : Workspace} {d : StorageDecl}
    (h : Fresh declared w) (hadd : addStorage w d = .ok w') : Fresh (declared ++ [d]) w' := by
  unfold addStorage at hadd
  split at hadd
  · cases hadd
  · obtain ⟨⟨id, added⟩, hstorage, hadd⟩ := Outcome.bind_eq_ok.mp hadd
    cases hadd
    rw [orFault_eq_ok] at hstorage
    unfold Workspace.addStorage at hstorage
    split at hstorage
    · cases hstorage
    · cases hstorage
      refine ⟨h.nextBlock, h.nextOperation, ?_⟩
      rw [List.mapIdx_concat, ← h.storages]
      simp [StorageDecl.blank, h.storages]

theorem workspace_fresh {s : Scenario} {w : Workspace} (h : workspace s = .ok w) :
    Fresh s.storages w := by
  obtain ⟨registered, hregistered, h⟩ := Outcome.bind_eq_ok.mp h
  have operators : Fresh [] registered := Outcome.foldlM_keeps (fun _ => Fresh []) ⟨rfl, rfl, rfl⟩
    (fun _ _ _ _ _ => addOperator_fresh) hregistered
  have supplied : Fresh [] registered.supplySql :=
    ⟨Workspace.next_supply.1.trans operators.nextBlock,
      Workspace.next_supply.2.trans operators.nextOperation,
      Workspace.storages_supply.trans operators.storages⟩
  exact Outcome.foldlM_keeps Fresh supplied (fun _ _ _ _ _ => addStorage_fresh) h

end Build

end Scenario

/-! ## Results -/

namespace Scope

open Scenario

/-- The value of a result, with operations numbered from a start. -/
def ResultAt (ops : List OperationDecl) (start : Nat) (name : String) (v : Value) : Prop :=
  ∃ (k i : Nat) (o : OperationDecl), ops[k]? = some o ∧ o.results[i]? = some name ∧
    v = .result (start + k) i

theorem declareResults_places {s s' : Scope} {id : OperationId} {index : Nat}
    {names : List String} (h : s.declareResults id index names = .ok s') {name : String} {v : Value}
    (hv : s'.results.find? name = some v) :
    s.results.find? name = some v ∨
      ∃ i : Nat, names[i]? = some name ∧ v = .result id (index + i) := by
  induction names generalizing s index with
  | nil =>
      cases h
      exact .inl hv
  | cons first rest ih =>
      obtain ⟨mid, hmid, h⟩ := Outcome.bind_eq_ok.mp h
      unfold declareResult at hmid
      split at hmid
      · cases hmid
      · cases hmid
        rcases ih h with hv | ⟨i, hi, rfl⟩
        · rw [OrdMap.find?_insert] at hv
          split at hv
          · rename_i e
            cases hv
            exact .inr ⟨0, by simp [e], rfl⟩
          · exact .inl hv
        · exact .inr ⟨i + 1, by simpa using hi, by rw [Nat.add_assoc, Nat.add_comm 1 i]⟩

theorem declareOperations_next {s s' : Scope} {ops : List OperationDecl}
    {ids : List OperationId} (h : s.declareOperations ops = .ok (ids, s')) :
    s'.workspace.nextBlock = s.workspace.nextBlock ∧
      s'.workspace.nextOperation = s.workspace.nextOperation + ops.length := by
  induction ops generalizing s ids with
  | nil =>
      cases h
      exact ⟨rfl, rfl⟩
  | cons o rest ih =>
      obtain ⟨mid, hmid, h⟩ := Outcome.bind_eq_ok.mp h
      obtain ⟨⟨ids', s''⟩, hrest, h⟩ := Outcome.bind_eq_ok.mp h
      cases h
      have same := (declareResults_spec hmid).1
      obtain ⟨hblock, hoperation⟩ := ih hrest
      rw [same] at hblock hoperation
      refine ⟨hblock, hoperation.trans ?_⟩
      rw [List.length_cons, Nat.add_comm rest.length 1, ← Nat.add_assoc]

theorem declareOperations_places {s s' : Scope} {ops : List OperationDecl}
    {ids : List OperationId} (h : s.declareOperations ops = .ok (ids, s')) {name : String}
    {v : Value} (hv : s'.results.find? name = some v) :
    s.results.find? name = some v ∨ ResultAt ops s.workspace.nextOperation name v := by
  induction ops generalizing s ids with
  | nil =>
      cases h
      exact .inl hv
  | cons o rest ih =>
      obtain ⟨mid, hmid, h⟩ := Outcome.bind_eq_ok.mp h
      obtain ⟨⟨ids', s''⟩, hrest, h⟩ := Outcome.bind_eq_ok.mp h
      cases h
      have hnext : mid.workspace.nextOperation = s.workspace.nextOperation + 1 := by
        rw [(declareResults_spec hmid).1]
      rcases ih hrest with hv | ⟨k, i, o', ho', hname, rfl⟩
      · rcases declareResults_places hmid hv with hv | ⟨i, hname, rfl⟩
        · exact .inl hv
        · exact .inr ⟨0, i, o, rfl, hname, by rw [Nat.zero_add]; rfl⟩
      · refine .inr ⟨k + 1, i, o', by simpa using ho', hname, ?_⟩
        rw [hnext, Nat.add_assoc, Nat.add_comm 1 k]

end Scope

/-! ## Blocks -/

namespace Scenario.Build

/-- The first inputs of a block are there, and their values by name. -/
structure Slotted (block : BlockId) (slots : List SlotDecl) (p : Block × OrdMap String Value) :
    Prop where
  id : p.1.id = block
  inputs : p.1.inputs.toList = slots.map SlotDecl.decl
  outputs : p.1.outputs = .empty
  results : p.1.results = .empty
  values : ∀ name v, p.2.find? name = some v →
    ∃ i : Nat, (slots.map (·.name))[i]? = some name ∧ v = .argument block i

theorem add_eq_ok {d d' : Decls} {name : String} {type : DataType} {index : Nat}
    (h : d.add name type = .ok (index, d')) :
    index = d.size ∧ d'.toList = d.toList ++ [⟨name, type⟩] := by
  unfold Decls.add at h
  split at h
  · cases h
  · cases h
    exact ⟨rfl, rfl⟩

theorem addInput_slotted {owner : String} {block : BlockId} {slots : List SlotDecl}
    {p p' : Block × OrdMap String Value} {d : SlotDecl} (h : Slotted block slots p)
    (hadd : addInput owner p d = .ok p') : Slotted block (slots ++ [d]) p' := by
  unfold addInput at hadd
  split at hadd
  · cases hadd
  · obtain ⟨⟨value, b⟩, hb, hadd⟩ := Outcome.bind_eq_ok.mp hadd
    cases hadd
    rw [orFault_eq_ok] at hb
    obtain ⟨⟨index, inputs⟩, hinputs, hb⟩ := Outcome.bind_eq_ok.mp hb
    cases hb
    obtain ⟨rfl, listed⟩ := add_eq_ok hinputs
    have size : p.1.inputs.size = (slots.map (·.name)).length := by
      rw [Decls.size, h.inputs, List.length_map, List.length_map]
    refine ⟨h.id, by simp [listed, h.inputs, SlotDecl.decl], h.outputs, h.results, ?_⟩
    intro name v hv
    rw [List.map_append, List.map_singleton]
    rw [OrdMap.find?_insert] at hv
    split at hv
    · rename_i e
      cases hv
      refine ⟨p.1.inputs.size, ?_, by rw [h.id]⟩
      rw [size, List.getElem?_concat_length, e]
    · obtain ⟨i, hi, rfl⟩ := h.values name v hv
      have hlt := (List.getElem?_eq_some_iff.mp hi).1
      exact ⟨i, by rw [List.getElem?_append_left hlt, hi], rfl⟩

/-- A declared block has the slots of its declaration, and nothing else. -/
structure Sketches (b : BlockDecl) (block : Block) : Prop where
  inputs : block.inputs.toList = b.inputs.map SlotDecl.decl
  outputs : block.outputs.toList = b.outputs.map SlotDecl.decl
  results : block.results = .empty
  operations : block.operations = []

theorem addOutput_listed {owner : String} {b b' : Block} {slots : List SlotDecl} {d : SlotDecl}
    (h : b.outputs.toList = slots.map SlotDecl.decl) (hadd : addOutput owner b d = .ok b') :
    b'.inputs = b.inputs ∧ b'.results = b.results ∧
      b'.outputs.toList = (slots ++ [d]).map SlotDecl.decl := by
  unfold addOutput at hadd
  split at hadd
  · cases hadd
  · rw [orFault_eq_ok] at hadd
    obtain ⟨⟨index, outputs⟩, houtputs, hadd⟩ := Outcome.bind_eq_ok.mp hadd
    cases hadd
    obtain ⟨-, listed⟩ := add_eq_ok houtputs
    exact ⟨rfl, rfl, by simp [listed, h, SlotDecl.decl]⟩

theorem addOutputs_listed {owner : String} {b b' : Block} {slots : List SlotDecl}
    (none : b.outputs = .empty) (h : slots.foldlM (addOutput owner) b = .ok b') :
    b'.inputs = b.inputs ∧ b'.results = b.results ∧
      b'.outputs.toList = slots.map SlotDecl.decl := by
  refine Outcome.foldlM_keeps
    (fun done (q : Block) => q.inputs = b.inputs ∧ q.results = b.results ∧
      q.outputs.toList = done.map SlotDecl.decl) ⟨rfl, rfl, by rw [none]; rfl⟩ ?_ h
  intro _ _ q q' _ inv hq
  obtain ⟨hinputs, hresults, houtputs⟩ := addOutput_listed inv.2.2 hq
  exact ⟨hinputs.trans inv.1, hresults.trans inv.2.1, houtputs⟩

end Scenario.Build

namespace Scope

open Scenario Scenario.Build

/-- The scope leads names to the positions at which they are declared in the blocks. -/
structure Places (s : Scope) (blocks : List BlockDecl) : Prop where
  nextBlock : s.workspace.nextBlock = blocks.length
  nextOperation : s.workspace.nextOperation = (blocks.flatMap (·.operations)).length
  results : ∀ name v, s.results.find? name = some v →
    ResultAt (blocks.flatMap (·.operations)) 0 name v
  arguments : ∀ owner inputs, s.arguments.find? owner = some inputs →
    ∃ (k : Nat) (b : BlockDecl), blocks[k]? = some b ∧ b.name = owner ∧
      ∀ input v, inputs.find? input = some v →
        ∃ i : Nat, b.inputNames[i]? = some input ∧ v = .argument k i

theorem ResultAt.append_left {ops : List OperationDecl} {name : String} {v : Value}
    (h : ResultAt ops 0 name v) (more : List OperationDecl) : ResultAt (ops ++ more) 0 name v := by
  obtain ⟨k, i, o, ho, hname, rfl⟩ := h
  have hlt := (List.getElem?_eq_some_iff.mp ho).1
  exact ⟨k, i, o, by rw [List.getElem?_append_left hlt, ho], hname, rfl⟩

theorem ResultAt.append_right {ops : List OperationDecl} {name : String} {v : Value}
    {before : List OperationDecl} (h : ResultAt ops before.length name v) :
    ResultAt (before ++ ops) 0 name v := by
  obtain ⟨k, i, o, ho, hname, rfl⟩ := h
  refine ⟨before.length + k, i, o, ?_, hname, by rw [Nat.zero_add]⟩
  rw [List.getElem?_append_right (Nat.le_add_right _ _), Nat.add_sub_cancel_left, ho]

/-- One more block: its arguments are entered under its name, then its operations. -/
theorem Places.concat {s s' : Scope} {done : List BlockDecl} {b : BlockDecl} {block : Block}
    {inputs : OrdMap String Value} {ids : List OperationId} (places : s.Places done)
    (slotted : Slotted s.workspace.nextBlock b.inputs (block, inputs))
    (h : ({ s with
        workspace := s.workspace.newBlock.2
        arguments := s.arguments.insert b.name inputs } : Scope).declareOperations b.operations =
      .ok (ids, s')) : s'.Places (done ++ [b]) := by
  obtain ⟨hargs, -⟩ := declareOperations_spec h
  obtain ⟨hblock, hoperation⟩ := declareOperations_next h
  refine ⟨?_, ?_, ?_, ?_⟩
  · rw [hblock, List.length_append, ← places.nextBlock]
    rfl
  · rw [hoperation, List.flatMap_append, List.flatMap_singleton, List.length_append,
      ← places.nextOperation]
    rfl
  · intro name v hv
    rw [List.flatMap_append, List.flatMap_singleton]
    rcases declareOperations_places h hv with hv | hv
    · exact (places.results name v hv).append_left _
    · have start : ResultAt b.operations (done.flatMap (·.operations)).length name v :=
        places.nextOperation ▸ hv
      exact start.append_right
  · intro owner found hfound
    rw [hargs, OrdMap.find?_insert] at hfound
    split at hfound
    · rename_i e
      cases hfound
      refine ⟨done.length, b, List.getElem?_concat_length, e.symm, fun input v hv => ?_⟩
      obtain ⟨i, hi, rfl⟩ := slotted.values input v hv
      exact ⟨i, hi, by rw [places.nextBlock]⟩
    · obtain ⟨k, b', hb', hname, hvalues⟩ := places.arguments owner found hfound
      have hlt := (List.getElem?_eq_some_iff.mp hb').1
      exact ⟨k, b', by rw [List.getElem?_append_left hlt, hb'], hname, hvalues⟩

theorem declareBlock_places {s s' : Scope} {done : List BlockDecl} {b : BlockDecl} {draft : Draft}
    (places : s.Places done) (h : declareBlock s b = .ok (draft, s')) :
    s'.Places (done ++ [b]) ∧ Sketches b draft.block := by
  have empty := (declareBlock_spec h).1
  unfold declareBlock at h
  split at h
  · cases h
  · obtain ⟨⟨block, inputs⟩, hin, h⟩ := Outcome.bind_eq_ok.mp h
    obtain ⟨block', hout, h⟩ := Outcome.bind_eq_ok.mp h
    obtain ⟨⟨ids, s''⟩, hops, h⟩ := Outcome.bind_eq_ok.mp h
    cases h
    rw [orError_eq_ok] at hops
    have slotted : Slotted s.workspace.nextBlock b.inputs (block, inputs) :=
      Outcome.foldlM_keeps (Slotted s.workspace.nextBlock)
        ⟨rfl, rfl, rfl, rfl, by simp⟩ (fun _ _ _ _ _ => addInput_slotted) hin
    obtain ⟨hinputs, hresults, houtputs⟩ := addOutputs_listed slotted.outputs hout
    exact ⟨places.concat slotted hops, by rw [hinputs, slotted.inputs], houtputs,
      by rw [hresults, slotted.results], empty⟩

theorem declareBlocks_places {s s' : Scope} {done blocks : List BlockDecl} {drafts : List Draft}
    (places : s.Places done) (h : declareBlocks s blocks = .ok (drafts, s')) :
    s'.Places (done ++ blocks) ∧
      List.Forall₂ Sketches blocks (drafts.map (·.block)) := by
  induction blocks generalizing s done drafts with
  | nil =>
      cases h
      exact ⟨by simpa using places, .nil⟩
  | cons b rest ih =>
      obtain ⟨⟨draft, mid⟩, hfirst, h⟩ := Outcome.bind_eq_ok.mp h
      obtain ⟨⟨drafts', s''⟩, hrest, h⟩ := Outcome.bind_eq_ok.mp h
      cases h
      obtain ⟨places', sketched⟩ := declareBlock_places places hfirst
      obtain ⟨all, rest⟩ := ih places' hrest
      exact ⟨by simpa using all, .cons sketched rest⟩

/-! ## Resolving -/

/-- The scope leads every name of the scenario to its position. -/
structure Knows (scope : Scope) (s : Scenario) : Prop where
  places : scope.Places s.blocks
  storages : scope.workspace.storages.map (·.name) = s.storages.map (·.name)
  wellFormed : s.WellFormed

variable {scope : Scope} {s : Scenario} {owner : Option String} {inside : Option Nat}

/-- The text stands inside the block of this name, at this position. -/
def Here (s : Scenario) (owner : Option String) (inside : Option Nat) : Prop :=
  ∀ name, owner = some name →
    ∃ (k : Nat) (b : BlockDecl), inside = some k ∧ s.blocks[k]? = some b ∧ b.name = name

theorem Knows.input_denotes (known : scope.Knows s) {name input : String} {v : Value}
    (h : (do return (← scope.block name).find? input) =
      (.ok (some v) : Except Error (Option Value))) :
    ∃ (k i : Nat) (b : BlockDecl), s.blocks[k]? = some b ∧ b.name = name ∧
      b.inputNames[i]? = some input ∧ v = .argument k i := by
  obtain ⟨inputs, hinputs, h⟩ := Outcome.bind_eq_ok.mp h
  obtain ⟨k, b, hb, hname, hvalues⟩ := known.places.arguments name inputs (block_eq_ok.mp hinputs)
  obtain ⟨i, hi, rfl⟩ := hvalues input v (Except.ok.inj h)
  exact ⟨k, i, b, hb, hname, hi, rfl⟩

theorem Knows.storage_at (known : scope.Knows s) {name : String} {id : StorageId}
    (h : scope.workspace.findStorage? name = some id) :
    ∃ d, s.storages[id]? = some d ∧ d.name = name := by
  obtain ⟨hlt, hname, -⟩ := List.findIdx?_eq_some_iff_getElem.mp h
  have listed : (s.storages.map (·.name))[id]? = some name := by
    rw [← known.storages, List.getElem?_map, List.getElem?_eq_getElem hlt]
    simpa using hname
  rw [List.getElem?_map] at listed
  exact Option.map_eq_some_iff.mp listed

theorem Knows.find?_denotes (known : scope.Knows s) (here : Here s owner inside) {r : Reference}
    {v : Value} (h : scope.find? owner r = .ok (some v)) : s.Denotes inside r v := by
  cases r with
  | any =>
      cases h
      exact .any
  | result name =>
      obtain ⟨k, i, o, ho, hname, rfl⟩ := known.places.results name v (Except.ok.inj h)
      rw [Nat.zero_add]
      exact .result ho hname
  | stored name =>
      obtain ⟨index, hindex, rfl⟩ := Option.map_eq_some_iff.mp (Except.ok.inj h)
      obtain ⟨d, hd, rfl⟩ := known.storage_at hindex
      exact .stored hd
  | argument block input =>
      cases block with
      | some name =>
          obtain ⟨k, i, b, hb, rfl, hi, rfl⟩ := known.input_denotes h
          exact .foreign hb hi
      | none =>
          cases owner with
          | none => cases h
          | some name =>
              obtain ⟨k, i, b, hb, hname, hi, rfl⟩ := known.input_denotes h
              obtain ⟨k', b', rfl, hb', hname'⟩ := here name rfl
              have same := key_unique known.wellFormed.blocks hb hb' (hname.trans hname'.symm)
              exact .own (by rw [same]) hb hi
  | constant number =>
      cases h
      exact .constant number

theorem Knows.resolve_refers (known : scope.Knows s) (here : Here s owner inside) {place : Place}
    {text : String} {v : Value} (h : scope.resolve owner place text = .ok v) :
    s.Refers inside text v := by
  unfold resolve at h
  cases hparse : Reference.parse? text with
  | none => simp [hparse] at h
  | some r =>
      rw [hparse] at h
      obtain ⟨found, hfound, h⟩ := Outcome.bind_eq_ok.mp h
      cases found with
      | none => cases h
      | some value =>
          cases h
          exact ⟨r, Reference.parse?_eq_some_iff.mp hparse, known.find?_denotes here hfound⟩

end Scope

end TagFlow
