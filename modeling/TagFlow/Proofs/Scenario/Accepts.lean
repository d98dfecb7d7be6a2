import TagFlow.Proofs.Program.Lookup
import TagFlow.Proofs.Scenario.Drafts

/-! # What lowering accepts

A scenario has a program exactly when it is well-formed. No check of the builders fails on the
way, since the construction looks at every name before it uses it.
-/

namespace TagFlow

open Outcome Scope

namespace Scenario.Build

/-- The scope knows everything that the scenario declares. -/
structure Complete (s : Scenario) (scope : Scope) : Prop where
  stocks : Stocks s s.storages scope.workspace
  views : scope.Views s.blocks
  names : (s.blocks.map (·.name)).Nodup

variable {s : Scenario} {scope : Scope} {b : BlockDecl}

theorem Complete.resolve_decides (complete : Complete s scope) (hb : b ∈ s.blocks) (place : Place)
    (text : String) :
    Decides (fun _ => True) (s.Resolves (some b) text) (fun _ => True)
      (scope.resolve (some b.name) place text) :=
  Scope.resolve_decides complete.views complete.stocks complete.names (some b) (by simp [hb])
    place text

/-! ## Operations -/

/-- The operation has as many outputs as its operator in the scenario. -/
def Sized (s : Scenario) (o : Operation) : Prop := s.arity? o.operator = some o.outputCount

theorem toAttribute_decides (label name : String) (literal : Literal) :
    Decides (fun _ => True) (∀ kind, literal ≠ .unsupported kind) (fun _ => True)
      (toAttribute label name literal) := by
  cases literal with
  | unsupported kind => exact .refuses (fun h => h kind rfl) trivial
  | _ => exact .accepts (by simp) trivial

theorem toInput_decides (complete : Complete s scope) (hb : b ∈ s.blocks) (input : InputDecl) :
    Decides (fun _ => True) (∀ text, input = .reference text → s.Resolves (some b) text)
      (fun _ => True) (toInput scope b.name input) := by
  cases input with
  | constant number => exact .accepts (by simp) trivial
  | reference text =>
      exact (complete.resolve_decides hb (.block b.name) text).congr (by simp)

theorem toOperation_decides (complete : Complete s scope) (hb : b ∈ s.blocks) (index : Nat)
    (o : OperationDecl) (id : OperationId) :
    Decides (fun _ => True) (o.WellFormed s b) (Sized s)
      (toOperation scope b.name index o id) := by
  have known := complete.stocks.operators o.operator
  unfold toOperation
  simp only
  cases hop : scope.workspace.operator? o.operator with
  | none =>
      rw [hop] at known
      refine .refuses (fun h => ?_) trivial
      obtain ⟨outputs, harity, -⟩ := h.operator
      simp [harity] at known
  | some operator =>
      rw [hop, Option.map_some] at known
      obtain ⟨outputs, harity, same⟩ := Option.map_eq_some_iff.mp known.symm
      have attributes := Decides.mapM fun e (_ : e ∈ o.attributes.entries) =>
        (toAttribute_decides (label o b.name index) e.1 e.2).map
          (R := fun _ => True) (f := fun a => (e.1, a)) fun _ _ => trivial
      have inputs := Decides.mapM fun input (_ : input ∈ o.inputs) =>
        toInput_decides complete hb input
      have sized : ∀ attributes inputs,
          Sized s ⟨id, none, operator.toSignature, attributes, inputs, none⟩ := by
        intro attributes inputs
        rw [Sized, Operation.operator, Operation.outputCount, ← same]
        exact harity
      refine Decides.congr (.guarded trivial fun _ => attributes.bind fun attributes _ =>
        inputs.map fun inputs _ => sized _ inputs) ⟨?_, ?_⟩
      · rintro ⟨few, attributes, inputs⟩
        refine ⟨⟨outputs, harity, ?_⟩, attributes, fun text htext => inputs _ htext text rfl⟩
        rw [← same] at few
        exact Nat.le_of_not_lt few
      · intro h
        obtain ⟨count, hcount, few⟩ := h.operator
        rw [harity, Option.some.injEq] at hcount
        refine ⟨?_, h.attributes, fun input hinput text e => h.inputs text (e ▸ hinput)⟩
        rw [← same]
        exact Nat.not_lt_of_le (hcount ▸ few)

/-! ## Blocks -/

/-- A block on its way: its id, its outputs, and operations of the right size. -/
structure Shaped (s : Scenario) (b : BlockDecl) (id : BlockId) (block : Block) : Prop where
  id : block.id = id
  outputs : block.outputs.names = b.outputNames
  operations : ∀ o, o ∈ block.operations → Sized s o

theorem Shaped.push {id : BlockId} {block : Block} (h : Shaped s b id block) {o : Operation}
    (sized : Sized s o) : Shaped s b id (block.push o) := by
  refine ⟨h.id, h.outputs, fun p hp => ?_⟩
  rcases List.mem_append.mp hp with hp | hp
  · exact h.operations p hp
  · exact List.mem_singleton.mp hp ▸ sized

theorem fillOperations_decides (complete : Complete s scope) (hb : b ∈ s.blocks) {id : BlockId}
    {block : Block} (h : Shaped s b id block) (index : Nat)
    (ds : List (OperationDecl × OperationId)) :
    Decides (fun _ => True) (∀ d, d ∈ ds → d.1.WellFormed s b) (Shaped s b id)
      (fillOperations scope b.name index block ds) := by
  induction ds generalizing block index with
  | nil => exact .accepts (by simp) h
  | cons d rest ih =>
      have all := (toOperation_decides complete hb index d.1 d.2).bind fun o sized =>
        ih (h.push sized) (index + 1)
      exact all.congr (by rw [List.forall_mem_cons])

theorem bindOutput_decides (complete : Complete s scope) (hb : b ∈ s.blocks) {id : BlockId}
    {block : Block} (h : Shaped s b id block) (e : String × String) :
    Decides Failure.IsError (e.1 ∈ b.outputNames ∧ s.Resolves (some b) e.2) (Shaped s b id)
      (bindOutput scope b block e) := by
  unfold bindOutput
  have listed : b.outputs.any (·.name = e.1) = true ↔ e.1 ∈ b.outputNames := by
    simp [BlockDecl.outputNames]
  split
  case isTrue any =>
    have declared := listed.mp any
    have found : (block.outputs.find? e.1).isSome = true := by
      rw [find?_isSome_iff, h.outputs]
      exact declared
    have all := (complete.resolve_decides hb (.block b.name) e.2).orError.bind fun value _ =>
      (Decides.orFault ⟨_, if_pos found, ⟨h.id, h.outputs, h.operations⟩⟩ :
        Decides Failure.IsError True (Shaped s b id) (orFault (block.bind e.1 value)))
    exact all.congr (by simp [declared])
  case isFalse none => exact .refuses (fun both => none (listed.mpr both.1)) ⟨_, rfl⟩

/-- What is left to ask of a block once names are known to be distinct. -/
def Filled (s : Scenario) (b : BlockDecl) : Prop :=
  (∀ o, o ∈ b.operations → o.WellFormed s b) ∧
    ∀ e, e ∈ b.results.entries → e.1 ∈ b.outputNames ∧ s.Resolves (some b) e.2

/-- The module has blocks of these ids, and operations of the right size. -/
structure Holds (s : Scenario) (ids : List BlockId) (m : Module) : Prop where
  ids : m.blocks.map (·.id) = ids
  operations : ∀ o, o ∈ m.operations → Sized s o

theorem push_holds {ids : List BlockId} {m : Module} (h : Holds s ids m) {id : BlockId}
    (fresh : id ∉ ids) {block : Block} (shaped : Shaped s b id block) :
    ∃ m', m.push block = .ok m' ∧ Holds s (ids ++ [id]) m' := by
  have unknown : ¬ m.blockIndex.contains block.id = true := by
    rw [← h.ids] at fresh
    rw [shaped.id, Module.blockIndex_contains_iff]
    simpa using fresh
  refine ⟨_, if_neg unknown, ?_, fun o ho => ?_⟩
  · simp [h.ids, shaped.id]
  · rw [Module.operations, List.flatMap_append, List.flatMap_singleton] at ho
    rcases List.mem_append.mp ho with ho | ho
    · exact h.operations o ho
    · exact shaped.operations o ho

theorem fillBlock_decides (complete : Complete s scope) (hb : b ∈ s.blocks) {ids : List BlockId}
    {m : Module} (h : Holds s ids m) {d : Draft} (fits : Fits b d) (fresh : d.block.id ∉ ids) :
    Decides Failure.IsError (Filled s b) (Holds s (ids ++ [d.block.id]))
      (fillBlock scope m (b, d)) := by
  have start : Shaped s b d.block.id d.block := ⟨rfl, fits.outputs, by simp [fits.operations]⟩
  have operations := (fillOperations_decides complete hb start 0 (b.operations.zip d.ids)).orError
  have each : (∀ p, p ∈ b.operations.zip d.ids → p.1.WellFormed s b) ↔
      ∀ o, o ∈ b.operations → o.WellFormed s b := by
    rw [← List.forall_mem_map (f := Prod.fst) (P := (OperationDecl.WellFormed s b)),
      List.map_fst_zip (Nat.le_of_eq fits.ids.symm)]
  refine Decides.congr (operations.bind fun block shaped => ?_) (and_congr_left' each)
  have bindings := Decides.foldlM (fun _ => Shaped s b d.block.id) (l := b.results.entries) shaped
    fun _ e _ _ h => bindOutput_decides complete hb h e
  refine Decides.congr (bindings.bind fun block shaped => .orFault (push_holds h fresh shaped)) ?_
  rw [and_true, forall_mem_iff]

theorem fillBlocks_decides (complete : Complete s scope) {drafts : List Draft}
    (fits : List.Forall₂ Fits s.blocks drafts) (distinct : (drafts.map (·.block.id)).Nodup)
    {m : Module} (empty : Holds s [] m) :
    Decides Failure.IsError (∀ b, b ∈ s.blocks → Filled s b)
      (fun m' => ∀ o, o ∈ m'.operations → Sized s o)
      ((s.blocks.zip drafts).foldlM (fillBlock scope) m) := by
  have listed : (s.blocks.zip drafts).map (·.1) = s.blocks :=
    List.map_fst_zip (Nat.le_of_eq fits.length_eq)
  have drafted : (s.blocks.zip drafts).map (·.2) = drafts :=
    List.map_snd_zip (Nat.le_of_eq fits.length_eq.symm)
  have apart : ((s.blocks.zip drafts).map (·.2.block.id)).Nodup := by
    rw [← drafted, List.map_map] at distinct
    exact distinct
  have all : Decides Failure.IsError
      (∀ done p, done ++ [p] <+: s.blocks.zip drafts → Filled s p.1)
      (Holds s ((s.blocks.zip drafts).map (·.2.block.id)))
      ((s.blocks.zip drafts).foldlM (fillBlock scope) m) := by
    refine Decides.foldlM
      (fun (done : List (BlockDecl × Draft)) => Holds s (done.map (·.2.block.id))) empty ?_
    intro done p m hnext h
    have hp := mem_of_concat_isPrefix hnext
    rw [List.map_append]
    exact fillBlock_decides complete (List.of_mem_zip hp).1 h (List.forall₂_zip fits hp)
      (nodup_map_iff.mp apart done p hnext)
  refine (all.congr ?_).imp fun m h => h.operations
  rw [forall_mem_iff, ← List.forall_mem_map (f := Prod.fst) (P := Filled s), listed]

/-! ## Storage inputs -/

theorem storageInputs_decides (complete : Complete s scope) {d : StorageDecl}
    (hd : d ∈ s.storages) :
    Decides Failure.IsError (∀ text, text ∈ d.inputs → s.Resolves none text)
      (fun l => ∀ p, p ∈ l → p.1 < scope.workspace.storages.length) (storageInputs scope d) := by
  have found : (scope.workspace.findStorage? d.name).isSome = true := by
    rw [Workspace.findStorage?_isSome_iff, complete.stocks.storages]
    exact List.mem_map_of_mem hd
  obtain ⟨id, hid⟩ := Option.isSome_iff_exists.mp found
  rw [storageInputs, hid]
  have each := Decides.mapM fun text (_ : text ∈ d.inputs) =>
    (Scope.resolve_decides complete.views complete.stocks complete.names none (by simp)
      (.storage d.name) text).orError.map (f := fun value => (id, value))
      (R := fun p => p.1 < scope.workspace.storages.length)
      fun _ _ => Workspace.findStorage?_lt hid
  refine each.imp fun l h p hp => ?_
  obtain ⟨text, -, hp⟩ := exists_left_of_forall₂ h hp
  exact hp

theorem addStorageInput_total {w : Workspace} {p : StorageId × Value}
    (known : p.1 < w.storages.length) :
    ∃ w', addStorageInput w p = .ok w' ∧ w'.storages.length = w.storages.length := by
  have found : w.storage p.1 = .ok w.storages[p.1] := by
    rw [Workspace.storage, List.getElem?_eq_getElem known]
  rw [addStorageInput, Workspace.addStorageInput, found]
  exact ⟨_, rfl, List.length_set⟩

theorem addStorageInputs_decide {w : Workspace} {inputs : List (StorageId × Value)}
    (known : ∀ p, p ∈ inputs → p.1 < w.storages.length) :
    Decides Failure.IsError True (fun _ => True) (inputs.foldlM addStorageInput w) := by
  obtain ⟨w', hw', -⟩ := foldlM_total (fun _ (w' : Workspace) =>
      w'.storages.length = w.storages.length) (f := addStorageInput) rfl
    fun done p w' hnext (same : w'.storages.length = w.storages.length) => by
      obtain ⟨w'', hw'', same'⟩ :=
        addStorageInput_total (same ▸ known p (mem_of_concat_isPrefix hnext))
      exact ⟨w'', hw'', same'.trans same⟩
  rw [hw']
  exact .accepts trivial trivial

end Scenario.Build

/-! ## Programs -/

namespace Scenario

open Build

theorem program_decides (s : Scenario) :
    Decides Failure.IsError s.WellFormed (fun p => ∀ o, o ∈ p.root.operations → Sized s o)
      s.program := by
  have parts : Decides Failure.IsError
      (((s.operators.map (·.name)).Nodup ∧ (s.storages.map (·.name)).Nodup) ∧
        ((s.blocks.map (·.name)).Nodup ∧ s.resultNames.Nodup ∧
          ∀ b, b ∈ s.blocks → b.inputNames.Nodup ∧ b.outputNames.Nodup) ∧
        (∀ b, b ∈ s.blocks → Filled s b) ∧
          (∀ d, d ∈ s.storages → ∀ text, text ∈ d.inputs → s.Resolves none text) ∧ True)
      (fun p => ∀ o, o ∈ p.root.operations → Sized s o) s.program := by
    refine (workspace_decides s).bind fun w stocks => ?_
    have none : Views { workspace := w } [] := ⟨fun _ => .none, by simp [OrdMap.contains]⟩
    refine (declareBlocks_decides none .nil .nil).bind fun r drafted => ?_
    have complete : Complete s { r.2 with workspace := r.2.workspace.newModule.2 } :=
      ⟨stocks.congr drafted.operators drafted.storages,
        ⟨drafted.views.arguments, drafted.views.results⟩, drafted.names⟩
    have distinct : (r.1.map (·.block.id)).Nodup := drafted.ids ▸ List.nodup_range'
    have empty : Holds s [] r.2.workspace.newModule.1 := ⟨rfl, fun _ ho => by cases ho⟩
    refine (fillBlocks_decides complete drafted.fits distinct empty).bind fun root sized => ?_
    refine (Decides.mapM fun d hd => storageInputs_decides complete hd).bind fun inputs h => ?_
    refine (addStorageInputs_decide fun p hp => ?_).map fun _ _ => sized
    obtain ⟨l, hl, hp⟩ := List.mem_flatten.mp hp
    obtain ⟨d, -, hd⟩ := exists_left_of_forall₂ h hl
    exact hd p hp
  refine parts.congr ⟨?_, ?_⟩
  · rintro ⟨⟨operators, storages⟩, ⟨blocks, results, slots⟩, filled, stored, -⟩
    exact {
      operators, storages, blocks, results, stored
      body := fun b hb => ⟨(slots b hb).1, (slots b hb).2, (filled b hb).1, (filled b hb).2⟩ }
  · intro h
    exact ⟨⟨h.operators, h.storages⟩,
      ⟨h.blocks, h.results, fun b hb => ⟨(h.body b hb).inputs, (h.body b hb).outputs⟩⟩,
      fun b hb => ⟨(h.body b hb).operations, (h.body b hb).results⟩, h.stored, trivial⟩

/-- Exactly the well-formed scenarios have a program, and the others are refused with an error:
building one never meets a fault. -/
theorem program_ok_iff_wellFormed (s : Scenario) :
    (∀ fault, s.program ≠ .error (.fault fault)) ∧ ((∃ p, s.program = .ok p) ↔ s.WellFormed) := by
  refine ⟨fun fault h => ?_, s.program_decides.ok_iff⟩
  obtain ⟨error, e⟩ := s.program_decides.mild_of_error h
  cases e

end Scenario

end TagFlow
