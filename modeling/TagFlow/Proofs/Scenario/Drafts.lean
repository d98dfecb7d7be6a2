import TagFlow.Proofs.Scenario.WellFormed

/-! # What a scenario declares

Registering the operators, storages and blocks of a scenario fails for a repeated name only, and
gives a scope that knows everything the scenario declares.
-/

namespace TagFlow

open Outcome Scope

/-! ## Operators and storages -/

namespace Workspace

theorem operator?_supply {w : Workspace} {names : List String} {name : String} :
    (w.supply names).operator? name =
      (w.operator? name).or (if name ∈ names then some { name } else none) := by
  unfold supply
  induction names generalizing w with
  | nil => simp
  | cons first rest ih =>
      rw [List.foldl_cons, ih]
      by_cases known : w.hasOperator first = true
      · rw [if_pos known]
        by_cases e : name = first
        · subst e
          obtain ⟨operator, h⟩ := Option.isSome_iff_exists.mp known
          simp [h]
        · simp [e]
      · rw [if_neg known]
        by_cases e : name = first
        · subst e
          have h : w.operators.find? name = none := by
            simpa [hasOperator, operator?] using known
          simp [h, operator?]
        · simp [operator?, OrdMap.find?_insert, e]

theorem storages_supply {w : Workspace} {names : List String} :
    (w.supply names).storages = w.storages := by
  unfold supply
  induction names generalizing w with
  | nil => rfl
  | cons first rest ih =>
      rw [List.foldl_cons, ih]
      split <;> rfl

end Workspace

namespace Scenario.Build

/-- The workspace has these operators, and no storage yet. -/
structure Registers (declared : List OperatorDecl) (w : Workspace) : Prop where
  operators : ∀ name, (w.operator? name).map (·.toSignature) =
    (declared.find? (·.name = name)).map fun d => ⟨name, d.outputs⟩
  storages : w.storages = []

theorem Registers.hasOperator_iff {declared : List OperatorDecl} {w : Workspace}
    (h : Registers declared w) {name : String} :
    w.hasOperator name = true ↔ name ∈ declared.map (·.name) := by
  rw [Workspace.hasOperator, ← Option.isSome_map (f := (·.toSignature)), h.operators]
  simp

theorem Registers.insert {declared : List OperatorDecl} {w : Workspace}
    (h : Registers declared w) {d : OperatorDecl} (fresh : d.name ∉ declared.map (·.name)) :
    Registers (declared ++ [d]) { w with
      operators := w.operators.insert d.name { name := d.name, outputs := d.outputs } } := by
  have unknown : declared.find? (·.name = d.name) = none := by simpa using fresh
  refine ⟨fun name => ?_, h.storages⟩
  rw [List.find?_append]
  by_cases e : name = d.name
  · subst e
    simp [Workspace.operator?, unknown]
  · have old := h.operators name
    simp only [Workspace.operator?] at old ⊢
    rw [OrdMap.find?_insert_of_ne _ _ e, old]
    simp [Ne.symm e]

theorem addOperator_decides {declared : List OperatorDecl} {w : Workspace}
    (h : Registers declared w) (d : OperatorDecl) :
    Decides Failure.IsError (d.name ∉ declared.map (·.name)) (Registers (declared ++ [d]))
      (addOperator w d) := by
  have checked : Decides Failure.IsError (¬ w.hasOperator d.name = true ∧ True)
      (Registers (declared ++ [d])) (addOperator w d) :=
    .guarded ⟨_, rfl⟩ fun known => .orFault
      ⟨_, if_neg known, h.insert fun old => known (h.hasOperator_iff.mpr old)⟩
  exact checked.congr (by rw [h.hasOperator_iff, and_true])

theorem operators_decide (declared : List OperatorDecl) :
    Decides Failure.IsError (declared.map (·.name)).Nodup (Registers declared)
      (declared.foldlM addOperator {}) := by
  have start : Registers [] {} := ⟨fun name => rfl, rfl⟩
  have all := Decides.foldlM Registers (l := declared) start
    fun done d w _ inv => addOperator_decides inv d
  exact all.congr nodup_map_iff.symm

theorem addStorage_decides {s : Scenario} {declared : List StorageDecl} {w : Workspace}
    (h : Stocks s declared w) (d : StorageDecl) :
    Decides Failure.IsError (d.name ∉ declared.map (·.name)) (Stocks s (declared ++ [d]))
      (addStorage w d) := by
  have checked : Decides Failure.IsError (¬ (w.findStorage? d.name).isSome = true ∧ True ∧ True)
      (Stocks s (declared ++ [d])) (addStorage w d) :=
    .guarded ⟨_, rfl⟩ fun known =>
      (Decides.orFault ⟨_, if_neg known, rfl⟩).bind fun found e =>
        .accepts trivial (e ▸ ⟨h.operators, by simp [h.storages]⟩)
  exact checked.congr (by
    rw [Workspace.findStorage?_isSome_iff, h.storages, and_true, and_true])

theorem workspace_decides (s : Scenario) :
    Decides Failure.IsError ((s.operators.map (·.name)).Nodup ∧ (s.storages.map (·.name)).Nodup)
      (Stocks s s.storages) (workspace s) := by
  refine (operators_decide s.operators).bind fun w registers => ?_
  have start : Stocks s [] w.supplySql := by
    constructor
    · intro name
      rw [Workspace.supplySql, Workspace.operator?_supply, Option.map_or, registers.operators]
      simp only [arity?, Option.map_or]
      split <;> simp [Function.comp_def]
    · rw [Workspace.supplySql, Workspace.storages_supply, registers.storages]
      rfl
  have all := Decides.foldlM (Stocks s) (l := s.storages) start
    fun done d w _ inv => addStorage_decides inv d
  exact all.congr nodup_map_iff.symm

/-! ## Slots of a block -/

theorem add_of_fresh {d : Decls} {name : String} (fresh : name ∉ d.names) (type : DataType) :
    ∃ d', d.add name type = .ok (d.size, d') ∧ d'.names = d.names ++ [name] := by
  unfold Decls.add
  exact ⟨_, dif_neg fresh, by simp [Decls.names]⟩

theorem find?_isSome_iff {d : Decls} {name : String} :
    (d.find? name).isSome = true ↔ name ∈ d.names := by
  simp [Decls.find?, Decls.names]

/-- The first inputs of a block are there, and nothing else. -/
structure HasInputs (id : BlockId) (slots : List SlotDecl) (p : Block × OrdMap String Value) :
    Prop where
  id : p.1.id = id
  inputs : p.1.inputs.names = slots.map (·.name)
  outputs : p.1.outputs = .empty
  operations : p.1.operations = []
  known : ∀ name, p.2.contains name = true ↔ name ∈ slots.map (·.name)

/-- The first outputs of a block are there, and no operation. -/
structure HasOutputs (id : BlockId) (slots : List SlotDecl) (b : Block) : Prop where
  id : b.id = id
  outputs : b.outputs.names = slots.map (·.name)
  operations : b.operations = []

theorem contains_insert {m : OrdMap String Value} {known : List String}
    (h : ∀ name, m.contains name = true ↔ name ∈ known) (first : String) (v : Value)
    (name : String) : (m.insert first v).contains name = true ↔ name ∈ known ++ [first] := by
  rw [OrdMap.contains, OrdMap.find?_insert, List.mem_append, ← h, List.mem_singleton]
  split <;> simp [OrdMap.contains, *]

theorem addInput_decides (owner : String) {id : BlockId} {slots : List SlotDecl}
    {p : Block × OrdMap String Value} (h : HasInputs id slots p) (d : SlotDecl) :
    Decides Failure.IsError (d.name ∉ slots.map (·.name)) (HasInputs id (slots ++ [d]))
      (addInput owner p d) := by
  have checked : Decides Failure.IsError (¬ p.2.contains d.name = true ∧ True ∧ True)
      (HasInputs id (slots ++ [d])) (addInput owner p d) := by
    refine .guarded ⟨_, rfl⟩ fun known => ?_
    rw [h.known, ← h.inputs] at known
    obtain ⟨inputs, hadd, names⟩ := add_of_fresh known (dataType d.type)
    have added : p.1.addInput d.name (dataType d.type) =
        .ok (.argument p.1.id p.1.inputs.size, { p.1 with inputs }) := by
      rw [Block.addInput, hadd]
      rfl
    refine (Decides.orFault ⟨_, added, rfl⟩).bind fun found e => ?_
    subst e
    refine .accepts trivial ⟨h.id, ?_, h.outputs, h.operations, fun name => ?_⟩
    · rw [List.map_append, ← h.inputs]
      exact names
    · rw [List.map_append]
      exact contains_insert h.known _ _ name
  exact checked.congr (by rw [h.known, and_true, and_true])

theorem addOutput_decides (owner : String) {id : BlockId} {slots : List SlotDecl} {b : Block}
    (h : HasOutputs id slots b) (d : SlotDecl) :
    Decides Failure.IsError (d.name ∉ slots.map (·.name)) (HasOutputs id (slots ++ [d]))
      (addOutput owner b d) := by
  have checked : Decides Failure.IsError (¬ (b.outputs.find? d.name).isSome = true ∧ True)
      (HasOutputs id (slots ++ [d])) (addOutput owner b d) := by
    refine .guarded ⟨_, rfl⟩ fun known => .orFault ?_
    rw [find?_isSome_iff] at known
    obtain ⟨outputs, hadd, names⟩ := add_of_fresh known (dataType d.type)
    refine ⟨{ b with outputs }, ?_, h.id, ?_, h.operations⟩
    · rw [Block.addOutput, hadd]
      rfl
    · rw [List.map_append, ← h.outputs]
      exact names
  exact checked.congr (by rw [find?_isSome_iff, h.outputs, and_true])

/-! ## Results -/

/-- The scope knows these results, all distinct, and is otherwise as it was. -/
structure Names (before : Scope) (known : List String) (scope : Scope) : Prop where
  operators : scope.workspace.operators = before.workspace.operators
  storages : scope.workspace.storages = before.workspace.storages
  nextBlock : scope.workspace.nextBlock = before.workspace.nextBlock
  arguments : scope.arguments = before.arguments
  results : ∀ name, scope.results.contains name = true ↔ name ∈ known
  distinct : known.Nodup

/-- Distinct names stay so under a name exactly when it is new. -/
theorem nodup_concat_iff {known : List String} (distinct : known.Nodup) {name : String} :
    (known ++ [name]).Nodup ↔ name ∉ known := by
  rw [List.nodup_append]
  refine ⟨fun h known => h.2.2 name known name (by simp) rfl, fun fresh => ?_⟩
  exact ⟨distinct, by simp, fun a ha b hb e => fresh (List.mem_singleton.mp hb ▸ e ▸ ha)⟩

theorem nodup_step_iff {known first rest : List String} :
    (known ++ first).Nodup ∧ (known ++ first ++ rest).Nodup ↔ (known ++ first ++ rest).Nodup :=
  ⟨And.right, fun all => ⟨all.sublist (List.sublist_append_left _ rest), all⟩⟩

theorem declareResult_decides {before scope : Scope} {known : List String}
    (h : Names before known scope) (name : String) (value : Value) :
    Decides (fun _ => True) (known ++ [name]).Nodup (Names before (known ++ [name]))
      (scope.declareResult name value) := by
  have checked : Decides (fun _ => True) (¬ scope.results.contains name = true ∧ True)
      (Names before (known ++ [name])) (scope.declareResult name value) := by
    refine .guarded trivial fun unknown => .accepts trivial ?_
    rw [h.results] at unknown
    exact ⟨h.operators, h.storages, h.nextBlock, h.arguments, contains_insert h.results _ _,
      (nodup_concat_iff h.distinct).mpr unknown⟩
  exact checked.congr (by rw [h.results, and_true, nodup_concat_iff h.distinct])

theorem declareResults_decides {before scope : Scope} {known names : List String}
    (h : Names before known scope) (id : OperationId) (index : Nat) :
    Decides (fun _ => True) (known ++ names).Nodup (Names before (known ++ names))
      (scope.declareResults id index names) := by
  induction names generalizing scope known index with
  | nil =>
      rw [List.append_nil]
      exact .accepts h.distinct h
  | cons name rest ih =>
      rw [List.append_cons]
      have all := (declareResult_decides h name (.result id index)).bind fun mid hmid =>
        ih hmid (index + 1)
      exact all.congr nodup_step_iff

theorem declareOperations_decides {before scope : Scope} {known : List String}
    {ops : List OperationDecl} (h : Names before known scope) :
    Decides (fun _ => True) (known ++ ops.flatMap (·.results)).Nodup
      (fun r => r.1.length = ops.length ∧ Names before (known ++ ops.flatMap (·.results)) r.2)
      (scope.declareOperations ops) := by
  induction ops generalizing scope known with
  | nil =>
      rw [List.flatMap_nil, List.append_nil]
      exact .accepts h.distinct ⟨rfl, h⟩
  | cons o rest ih =>
      have fresh : Names before known
          { scope with workspace := scope.workspace.freshOperation.2 } :=
        ⟨h.operators, h.storages, h.nextBlock, h.arguments, h.results, h.distinct⟩
      rw [List.flatMap_cons, ← List.append_assoc]
      refine Decides.congr ?_ nodup_step_iff
      refine (declareResults_decides fresh scope.workspace.nextOperation 0).bind fun mid hmid => ?_
      exact (ih hmid).map fun r hr => ⟨congrArg (· + 1) hr.1, hr.2⟩

/-! ## Blocks -/

/-- A declared block has its outputs, and ids for its operations. -/
structure Fits (b : BlockDecl) (d : Draft) : Prop where
  outputs : d.block.outputs.names = b.outputNames
  operations : d.block.operations = []
  ids : d.ids.length = b.operations.length

/-- Blocks declared after others in a scope: what the scope then knows, and their drafts. -/
structure Drafted (before : Scope) (done blocks : List BlockDecl) (r : List Draft × Scope) :
    Prop where
  operators : r.2.workspace.operators = before.workspace.operators
  storages : r.2.workspace.storages = before.workspace.storages
  nextBlock : r.2.workspace.nextBlock = before.workspace.nextBlock + blocks.length
  views : r.2.Views (done ++ blocks)
  names : ((done ++ blocks).map (·.name)).Nodup
  results : ((done ++ blocks).flatMap BlockDecl.resultNames).Nodup
  fits : List.Forall₂ Fits blocks r.1
  ids : r.1.map (·.block.id) = List.range' before.workspace.nextBlock blocks.length

theorem Drafted.cons {before : Scope} {done rest : List BlockDecl} {b : BlockDecl} {d : Draft}
    {mid : Scope} {r : List Draft × Scope} (h : Drafted before done [b] ([d], mid))
    (k : Drafted mid (done ++ [b]) rest r) : Drafted before done (b :: rest) (d :: r.1, r.2) where
  operators := k.operators.trans h.operators
  storages := k.storages.trans h.storages
  nextBlock := by
    rw [k.nextBlock, h.nextBlock, List.length_singleton, List.length_cons]
    exact (Nat.add_assoc _ 1 _).trans (congrArg _ (Nat.add_comm 1 _))
  views := by simpa using k.views
  names := by simpa using k.names
  results := by simpa using k.results
  fits := by
    cases h.fits with
    | cons fits _ => exact .cons fits k.fits
  ids := by
    have first : d.block.id = before.workspace.nextBlock := by simpa using h.ids
    rw [List.map_cons, k.ids, h.nextBlock, first]
    rfl

theorem declareBlock_decides {scope : Scope} {done : List BlockDecl} (views : scope.Views done)
    (names : (done.map (·.name)).Nodup) (results : (done.flatMap BlockDecl.resultNames).Nodup)
    (b : BlockDecl) :
    Decides Failure.IsError
      (((done ++ [b]).map (·.name)).Nodup ∧ b.inputNames.Nodup ∧ b.outputNames.Nodup ∧
        ((done ++ [b]).flatMap BlockDecl.resultNames).Nodup)
      (fun r => Drafted scope done [b] ([r.1], r.2)) (declareBlock scope b) := by
  have new : ¬ scope.arguments.contains b.name = true ↔ ((done ++ [b]).map (·.name)).Nodup := by
    rw [List.map_append, List.map_singleton, nodup_concat_iff names, views.contains_iff]
  refine Decides.congr (.guarded ⟨_, rfl⟩ fun unknown => ?_) (and_congr_left' new)
  have noInputs : HasInputs scope.workspace.nextBlock []
      (.empty scope.workspace.nextBlock, .empty) :=
    ⟨rfl, rfl, rfl, rfl, by simp [OrdMap.contains]⟩
  have inputs := (Decides.foldlM (HasInputs scope.workspace.nextBlock) (l := b.inputs) noInputs
    fun _ d _ _ h => addInput_decides b.name h d).congr nodup_map_iff.symm
  refine inputs.bind fun p hp => ?_
  have noOutputs : HasOutputs scope.workspace.nextBlock [] p.1 :=
    ⟨hp.id, by rw [hp.outputs]; rfl, hp.operations⟩
  have outputs := (Decides.foldlM (HasOutputs scope.workspace.nextBlock) (l := b.outputs) noOutputs
    fun _ d _ _ h => addOutput_decides b.name h d).congr nodup_map_iff.symm
  refine outputs.bind fun block hblock => ?_
  let opened : Scope := { scope with
    workspace := scope.workspace.newBlock.2, arguments := scope.arguments.insert b.name p.2 }
  have start : Names opened (done.flatMap BlockDecl.resultNames) opened :=
    ⟨rfl, rfl, rfl, rfl, views.results, results⟩
  have all : (done ++ [b]).flatMap BlockDecl.resultNames =
      done.flatMap BlockDecl.resultNames ++ b.operations.flatMap (·.results) := by
    rw [List.flatMap_append, List.flatMap_singleton]
    rfl
  rw [all]
  refine (declareOperations_decides start).orError.map fun r hr => ?_
  have fresh : b.name ∉ done.map (·.name) := fun h => unknown (views.contains_iff.mpr h)
  exact {
    operators := hr.2.operators
    storages := hr.2.storages
    nextBlock := hr.2.nextBlock
    views := views.insert fresh hp.known hr.2.arguments (all ▸ hr.2.results)
    names := new.mp unknown
    results := all ▸ hr.2.distinct
    fits := .cons ⟨hblock.outputs, hblock.operations, hr.1⟩ .nil
    ids := by simp [hblock.id] }

theorem declareBlocks_decides {scope : Scope} {done blocks : List BlockDecl}
    (views : scope.Views done) (names : (done.map (·.name)).Nodup)
    (results : (done.flatMap BlockDecl.resultNames).Nodup) :
    Decides Failure.IsError
      (((done ++ blocks).map (·.name)).Nodup ∧
        ((done ++ blocks).flatMap BlockDecl.resultNames).Nodup ∧
          ∀ b, b ∈ blocks → b.inputNames.Nodup ∧ b.outputNames.Nodup)
      (Drafted scope done blocks) (declareBlocks scope blocks) := by
  induction blocks generalizing scope done with
  | nil =>
      rw [List.append_nil]
      refine .accepts ⟨names, results, by simp⟩ ?_
      exact ⟨rfl, rfl, rfl, by simpa using views, by simpa using names, by simpa using results,
        .nil, rfl⟩
  | cons b rest ih =>
      rw [List.append_cons]
      have all := (declareBlock_decides views names results b).bind fun r hr =>
        (ih hr.views hr.names hr.results).map fun r' hr' => hr.cons hr'
      refine all.congr ⟨?_, ?_⟩
      · rintro ⟨⟨_, inputs, outputs, _⟩, names, results, later⟩
        exact ⟨names, results, List.forall_mem_cons.mpr ⟨⟨inputs, outputs⟩, later⟩⟩
      · rintro ⟨names, results, slots⟩
        obtain ⟨⟨inputs, outputs⟩, later⟩ := List.forall_mem_cons.mp slots
        have front : (done ++ [b]).Sublist (done ++ [b] ++ rest) := List.sublist_append_left _ rest
        have known : ((done ++ [b]).flatMap BlockDecl.resultNames).Nodup := by
          rw [List.flatMap_append] at results
          exact results.sublist (List.sublist_append_left _ _)
        exact ⟨⟨names.sublist (front.map _), inputs, outputs, known⟩, names, results, later⟩

end Scenario.Build

end TagFlow
