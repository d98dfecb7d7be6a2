import TagFlow.Proofs.Related
import TagFlow.Proofs.Scenario.Places

/-! # The program that a scenario describes

Lowering keeps what the scenario says: its blocks, operations and storages are there in the order
of declaration, with the declared operators and attributes, and every input, result and storage
input is the value that its reference denotes. Nothing that a program uses is missing from it.
-/

namespace TagFlow

open Scope

namespace Scenario

inductive Literal.Means : Literal → Attribute → Prop where
  | integer (number : Int64) : Means (.integer number) (.integer number)
  | float (number : Double) : Means (.float number) (.double number)
  | text (value : String) : Means (.text value) (.text value)

/-- The operation that a declaration in the block at a position describes, but for its id. -/
structure OperationDecl.Lowered (s : Scenario) (block : Nat) (d : OperationDecl) (o : Operation) :
    Prop where
  parent : o.parent = some block
  operator : o.operator = d.operator
  outputs : s.arity? d.operator = some o.outputCount
  results : d.results.length ≤ o.outputCount
  attributes : d.attributes.Related Literal.Means o.attributes
  inputs : List.Forall₂ (InputDecl.Denotes s block) d.inputs o.inputs
  body : o.body = none

/-- The block that a declaration describes, at a position in a module. -/
structure BlockDecl.Lowered (s : Scenario) (root : ModuleId) (index : Nat) (d : BlockDecl)
    (b : Block) : Prop where
  id : b.id = index
  parent : b.parent = some root
  inputs : b.inputs.toList = d.inputs.map SlotDecl.decl
  outputs : b.outputs.toList = d.outputs.map SlotDecl.decl
  results : d.results.Related (s.Refers (some index)) b.results
  operations : List.Forall₂ (OperationDecl.Lowered s index) d.operations b.operations

structure StorageDecl.Lowered (s : Scenario) (index : Nat) (d : StorageDecl) (st : Storage) :
    Prop where
  id : st.id = index
  name : st.name = d.name
  type : st.type = Build.dataType d.type
  inputs : ∃ values, List.Forall₂ (s.Refers none) d.inputs values ∧ st.inputs = .ofList values

/-- The program is what the scenario describes. -/
structure Faithful (s : Scenario) (p : Program) : Prop where
  blocks : List.Forall₂ (fun e b => e.1.Lowered s p.root.id e.2 b) s.blocks.zipIdx p.root.blocks
  /-- Operations are numbered in the order of declaration, over all blocks. -/
  ids : p.root.operations.map (·.id) = List.range s.operations.length
  storages : List.Forall₂ (fun e st => e.1.Lowered s e.2 st) s.storages.zipIdx p.workspace.storages

namespace Build

variable {s : Scenario} {scope : Scope} {b : BlockDecl} {k : Nat}

theorem here_block (hb : s.blocks[k]? = some b) : Here s (some b.name) (some k) := by
  intro name e
  cases e
  exact ⟨k, b, rfl, hb, rfl⟩

theorem here_outside : Here s none none := by
  intro name e
  cases e

/-! ## Operations -/

theorem toAttribute_means {label name : String} {literal : Literal} {a : Attribute}
    (h : toAttribute label name literal = .ok a) : literal.Means a := by
  cases literal with
  | integer number =>
      cases h
      exact .integer number
  | float number =>
      cases h
      exact .float number
  | text value =>
      cases h
      exact .text value
  | unsupported kind => cases h

theorem toInput_denotes (known : scope.Knows s) (hb : s.blocks[k]? = some b) {input : InputDecl}
    {v : Value} (h : toInput scope b.name input = .ok v) : input.Denotes s k v := by
  cases input with
  | constant number =>
      cases h
      exact .constant number
  | reference text => exact .reference (known.resolve_refers (here_block hb) h)

theorem toOperation_lowered (known : scope.Knows s)
    (stocks : Stocks s s.storages scope.workspace) (hb : s.blocks[k]? = some b) {index : Nat}
    {d : OperationDecl} {id : OperationId} {o : Operation}
    (h : toOperation scope b.name index d id = .ok o) :
    o.id = id ∧ d.Lowered s k { o with parent := some k } := by
  have registered := stocks.operators d.operator
  unfold toOperation at h
  simp only at h
  cases hop : scope.workspace.operator? d.operator with
  | none => simp [hop] at h
  | some operator =>
      rw [hop] at h registered
      obtain ⟨outputs, harity, signature⟩ := Option.map_eq_some_iff.mp registered.symm
      simp only at h
      split at h
      · cases h
      · rename_i few
        obtain ⟨attributes, hattributes, h⟩ := Outcome.bind_eq_ok.mp h
        obtain ⟨inputs, hinputs, h⟩ := Outcome.bind_eq_ok.mp h
        cases h
        have meant : List.Forall₂ (fun e a => e.1 = a.1 ∧ Literal.Means e.2 a.2)
            d.attributes.entries attributes := by
          refine (Outcome.mapM_eq_ok.mp hattributes).imp fun e a ha => ?_
          obtain ⟨value, hvalue, ha⟩ := Outcome.bind_eq_ok.mp ha
          cases ha
          exact ⟨rfl, toAttribute_means hvalue⟩
        have count : outputs = operator.outputs := congrArg Signature.outputs signature
        refine ⟨rfl, rfl, ?_, ?_, Nat.le_of_not_lt few, .ofList meant, ?_, rfl⟩
        · exact (congrArg Signature.name signature).symm
        · rw [harity, count]
          rfl
        · exact (Outcome.mapM_eq_ok.mp hinputs).imp fun _ _ => toInput_denotes known hb

theorem fillOperations_lowered (known : scope.Knows s)
    (stocks : Stocks s s.storages scope.workspace) {index : Nat} {block block' : Block}
    (hb : s.blocks[block.id]? = some b) {ds : List (OperationDecl × OperationId)}
    (h : fillOperations scope b.name index block ds = .ok block') :
    ∃ ops, block' = { block with operations := block.operations ++ ops } ∧
      List.Forall₂ (fun d o => o.id = d.2 ∧ d.1.Lowered s block.id o) ds ops := by
  induction ds generalizing block index with
  | nil =>
      cases h
      exact ⟨[], by cases block'; simp, .nil⟩
  | cons d rest ih =>
      obtain ⟨o, ho, h⟩ := Outcome.bind_eq_ok.mp h
      have pushed : s.blocks[(block.push o).id]? = some b := hb
      obtain ⟨ops, hops, lowered⟩ := ih pushed h
      obtain ⟨hid, first⟩ := toOperation_lowered known stocks hb ho
      exact ⟨{ o with parent := some block.id } :: ops, by simp [hops, Block.push],
        .cons ⟨hid, first⟩ lowered⟩

/-! ## Blocks -/

theorem bindOutput_refers (known : scope.Knows s) (hb : s.blocks[k]? = some b)
    {block block' : Block} {e : String × String} (h : bindOutput scope b block e = .ok block') :
    ∃ v, s.Refers (some k) e.2 v ∧
      block' = { block with results := block.results.insert e.1 v } := by
  unfold bindOutput at h
  split at h
  · obtain ⟨v, hv, h⟩ := Outcome.bind_eq_ok.mp h
    rw [orError_eq_ok] at hv
    rw [orFault_eq_ok] at h
    unfold Block.bind at h
    split at h
    · cases h
      exact ⟨v, known.resolve_refers (here_block hb) hv, rfl⟩
    · cases h
  · cases h

theorem bindOutputs_related (known : scope.Knows s) (hb : s.blocks[k]? = some b)
    {block block' : Block} (unbound : block.results = .empty)
    (h : b.results.entries.foldlM (bindOutput scope b) block = .ok block') :
    ∃ results, block' = { block with results } ∧ b.results.Related (s.Refers (some k)) results := by
  have start : block = { block with results := .ofList [] } := by
    cases block
    cases unbound
    rfl
  have bound := Outcome.foldlM_keeps
    (fun done (q : Block) => ∃ values : List (String × Value),
      List.Forall₂ (fun e v => e.1 = v.1 ∧ s.Refers (some k) e.2 v.2) done values ∧
        q = { block with results := .ofList values })
    ⟨[], .nil, start⟩ (by
      rintro done e q q' - ⟨values, refers, rfl⟩ hq
      obtain ⟨v, hv, rfl⟩ := bindOutput_refers known hb hq
      refine ⟨values ++ [(e.1, v)], List.rel_append refers (.cons ⟨rfl, hv⟩ .nil), ?_⟩
      simp [OrdMap.ofList]) h
  obtain ⟨values, refers, rfl⟩ := bound
  exact ⟨_, rfl, .ofList refers⟩

theorem fillBlock_lowered (known : scope.Knows s)
    (stocks : Stocks s s.storages scope.workspace) {m m' : Module} {d : Draft}
    (sketched : Sketches b d.block) (hb : s.blocks[d.block.id]? = some b)
    (ids : d.ids.length = b.operations.length) (h : fillBlock scope m (b, d) = .ok m') :
    ∃ block, m' = { m with blocks := m.blocks ++ [block] } ∧
      b.Lowered s m.id d.block.id block ∧ block.operations.map (·.id) = d.ids := by
  obtain ⟨filled, hfill, h⟩ := Outcome.bind_eq_ok.mp h
  obtain ⟨bound, hbind, h⟩ := Outcome.bind_eq_ok.mp h
  rw [orError_eq_ok] at hfill
  rw [orFault_eq_ok] at h
  obtain ⟨ops, rfl, lowered⟩ := fillOperations_lowered known stocks hb hfill
  have unbound : ({ d.block with operations := d.block.operations ++ ops } : Block).results =
      .empty := sketched.results
  obtain ⟨results, rfl, related⟩ := bindOutputs_related known hb unbound hbind
  have operations : List.Forall₂ (OperationDecl.Lowered s d.block.id) b.operations ops := by
    have each := lowered.imp fun _ _ h => h.2
    rw [← List.forall₂_map_left_iff (f := Prod.fst)] at each
    rwa [List.map_fst_zip (Nat.le_of_eq ids.symm)] at each
  have numbered : ops.map (·.id) = d.ids := by
    have each : List.Forall₂ Eq ((b.operations.zip d.ids).map Prod.snd) (ops.map (·.id)) := by
      rw [List.forall₂_map_left_iff, List.forall₂_map_right_iff]
      exact lowered.imp fun _ _ h => h.1.symm
    rw [List.map_snd_zip (Nat.le_of_eq ids), List.forall₂_eq_eq_eq] at each
    exact each.symm
  unfold Module.push at h
  split at h
  · cases h
  · cases h
    refine ⟨_, rfl, ⟨rfl, rfl, sketched.inputs, sketched.outputs, related, ?_⟩, ?_⟩
    · simpa [sketched.operations] using operations
    · simpa [sketched.operations] using numbered

/-- What the module holds once some blocks have been filled in. -/
structure Fills (s : Scenario) (root : ModuleId) (done : List (BlockDecl × Draft)) (m : Module) :
    Prop where
  id : m.id = root
  blocks : List.Forall₂ (fun e block => e.1.Lowered s root e.2.block.id block) done m.blocks
  ids : m.operations.map (·.id) = done.flatMap (·.2.ids)

theorem fillBlocks_fill (known : scope.Knows s) (stocks : Stocks s s.storages scope.workspace)
    {drafts : List Draft} {m m' : Module} (empty : m.blocks = [])
    (ready : ∀ e, e ∈ s.blocks.zip drafts → Sketches e.1 e.2.block ∧
      s.blocks[e.2.block.id]? = some e.1 ∧ e.2.ids.length = e.1.operations.length)
    (h : (s.blocks.zip drafts).foldlM (fillBlock scope) m = .ok m') :
    Fills s m.id (s.blocks.zip drafts) m' := by
  refine Outcome.foldlM_keeps (Fills s m.id) ⟨rfl, by rw [empty]; exact .nil, ?_⟩ ?_ h
  · simp [Module.operations, empty]
  · rintro done ⟨b, d⟩ q q' he inv hq
    obtain ⟨sketched, hb, ids⟩ := ready (b, d) he
    obtain ⟨block, rfl, lowered, numbered⟩ := fillBlock_lowered known stocks sketched hb ids hq
    refine ⟨inv.id, List.rel_append inv.blocks (.cons (inv.id ▸ lowered) .nil), ?_⟩
    have before := inv.ids
    simp only [Module.operations] at before
    simp [Module.operations, before, numbered]

/-! ## Storages -/

theorem storageInputs_refer (known : scope.Knows s) {d : StorageDecl} {index : Nat}
    (hd : s.storages[index]? = some d) {l : List (StorageId × Value)}
    (h : storageInputs scope d = .ok l) :
    ∃ values, List.Forall₂ (s.Refers none) d.inputs values ∧ l = values.map (index, ·) := by
  unfold storageInputs at h
  cases hid : scope.workspace.findStorage? d.name with
  | none => simp [hid] at h
  | some id =>
      obtain ⟨d', hd', hname⟩ := known.storage_at hid
      have hindex : id = index := key_unique known.wellFormed.storages hd' hd hname
      subst hindex
      rw [hid] at h
      have each : List.Forall₂ (fun text p => p.1 = id ∧ s.Refers none text p.2) d.inputs l := by
        refine (Outcome.mapM_eq_ok.mp h).imp fun text p hp => ?_
        obtain ⟨v, hv, hp⟩ := Outcome.bind_eq_ok.mp hp
        cases hp
        rw [orError_eq_ok] at hv
        exact ⟨rfl, known.resolve_refers here_outside hv⟩
      refine ⟨l.map (·.2), ?_, ?_⟩
      · rw [List.forall₂_map_right_iff]
        exact each.imp fun _ _ h => h.2
      · rw [List.map_map]
        refine (List.map_id l).symm.trans (List.map_congr_left fun p hp => ?_)
        obtain ⟨text, -, hfirst, -⟩ := Outcome.exists_left_of_forall₂ each hp
        rw [Function.comp_apply, ← hfirst]
        rfl

/-- The storages are the same but for the values written into them. -/
structure Stores (w : Workspace) (written : List (StorageId × Value)) (w' : Workspace) : Prop where
  length_eq : w'.storages.length = w.storages.length
  storage : ∀ (i : Nat) st, w.storages[i]? = some st → ∃ inputs,
    w'.storages[i]? = some { st with inputs } ∧
      ∀ v, v ∈ inputs ↔ v ∈ st.inputs ∨ (i, v) ∈ written

theorem addStorageInput_stores {w w' w'' : Workspace} {done : List (StorageId × Value)}
    {p : StorageId × Value} (h : Stores w done w') (hadd : addStorageInput w' p = .ok w'') :
    Stores w (done ++ [p]) w'' := by
  obtain ⟨id, value⟩ := p
  rw [addStorageInput, orFault_eq_ok] at hadd
  obtain ⟨found, hfound, hadd⟩ := Outcome.bind_eq_ok.mp hadd
  cases hadd
  have hget : w'.storages[id]? = some found := by
    unfold Workspace.storage at hfound
    split at hfound
    · cases hfound
      assumption
    · cases hfound
  refine ⟨by rw [List.length_set, h.length_eq], fun i st hst => ?_⟩
  obtain ⟨inputs, hinputs, hmem⟩ := h.storage i st hst
  by_cases e : i = id
  · subst e
    rw [hget, Option.some.injEq] at hinputs
    subst hinputs
    have hlt := (List.getElem?_eq_some_iff.mp hget).1
    refine ⟨inputs.insert value, by rw [List.getElem?_set_self hlt], fun v => ?_⟩
    rw [OrdSet.mem_insert, hmem, List.mem_append, List.mem_singleton, Prod.mk.injEq]
    simp only [true_and]
    exact ⟨by tauto, by tauto⟩
  · refine ⟨inputs, by rw [List.getElem?_set_ne (Ne.symm e), hinputs], fun v => ?_⟩
    rw [hmem, List.mem_append, List.mem_singleton, Prod.mk.injEq]
    simp [e]

theorem mem_storageInputs_iff (known : scope.Knows s) {inputs : List (List (StorageId × Value))}
    (hinputs : s.storages.mapM (storageInputs scope) = .ok inputs) {i : Nat} {d : StorageDecl}
    (hd : s.storages[i]? = some d) :
    ∃ values, List.Forall₂ (s.Refers none) d.inputs values ∧
      ∀ v, (i, v) ∈ inputs.flatten ↔ v ∈ values := by
  have found := Outcome.mapM_eq_ok.mp hinputs
  obtain ⟨l, hl, hd'⟩ := Outcome.getElem?_of_forall₂ found hd
  obtain ⟨values, refers, rfl⟩ := storageInputs_refer known hd hd'
  refine ⟨values, refers, fun v => ⟨fun hv => ?_, fun hv => ?_⟩⟩
  · obtain ⟨l', hl', hv⟩ := List.mem_flatten.mp hv
    obtain ⟨j, hj⟩ := List.mem_iff_getElem?.mp hl'
    obtain ⟨e, he, hstored⟩ := Outcome.getElem?_of_forall₂ found.flip hj
    obtain ⟨others, -, rfl⟩ := storageInputs_refer known he hstored
    obtain ⟨other, hother, same⟩ := List.mem_map.mp hv
    cases same
    rw [hl, Option.some.injEq] at hj
    have hmem := hj ▸ hv
    simpa using hmem
  · exact List.mem_flatten.mpr ⟨_, List.mem_of_getElem? hl, List.mem_map_of_mem hv⟩

theorem storages_lowered (known : scope.Knows s) {w w' : Workspace}
    (blank : w.storages = s.storages.mapIdx StorageDecl.blank)
    {inputs : List (List (StorageId × Value))}
    (hinputs : s.storages.mapM (storageInputs scope) = .ok inputs)
    (h : inputs.flatten.foldlM addStorageInput w = .ok w') :
    List.Forall₂ (fun e st => e.1.Lowered s e.2 st) s.storages.zipIdx w'.storages := by
  have stores : Stores w inputs.flatten w' :=
    Outcome.foldlM_keeps (Stores w)
      ⟨rfl, fun i st hst => ⟨st.inputs, hst, by simp⟩⟩
      (fun _ _ _ _ _ => addStorageInput_stores) h
  rw [List.forall₂_iff_get]
  refine ⟨by rw [List.length_zipIdx, stores.length_eq, blank, List.length_mapIdx], ?_⟩
  intro i hi hi'
  rw [List.length_zipIdx] at hi
  have hd : s.storages[i]? = some s.storages[i] := List.getElem?_eq_getElem hi
  have hblank : w.storages[i]? = some (StorageDecl.blank i s.storages[i]) := by
    rw [blank, List.getElem?_mapIdx, hd]
    rfl
  obtain ⟨written, hwritten, hmem⟩ := stores.storage i _ hblank
  obtain ⟨values, refers, hvalues⟩ := mem_storageInputs_iff known hinputs hd
  rw [List.getElem?_eq_getElem hi', Option.some.injEq] at hwritten
  rw [List.get_eq_getElem, List.get_eq_getElem, hwritten, List.getElem_zipIdx]
  refine ⟨by simp [StorageDecl.blank], rfl, rfl, values, refers, ?_⟩
  apply OrdSet.ext
  intro v
  rw [hmem, hvalues, OrdSet.mem_ofList]
  simp [StorageDecl.blank]

/-! ## Assembling -/

theorem ids_eq_range {drafts : List Draft} {start scope : Scope}
    (first : start.workspace.nextOperation = 0)
    (declares : start.Declares ((s.blocks.zip drafts).flatMap pairs) scope)
    (listed : (s.blocks.zip drafts).map (·.1) = s.blocks)
    (fits : ∀ e, e ∈ s.blocks.zip drafts → e.2.ids.length = e.1.operations.length) :
    (s.blocks.zip drafts).flatMap (·.2.ids) = List.range s.operations.length := by
  have ids : ((s.blocks.zip drafts).flatMap pairs).map (·.2) =
      (s.blocks.zip drafts).flatMap (·.2.ids) := by
    rw [List.map_flatMap]
    exact List.flatMap_congr fun e he => List.map_snd_zip (Nat.le_of_eq (fits e he))
  have declared : ((s.blocks.zip drafts).flatMap pairs).map (·.1) = s.operations := by
    rw [List.map_flatMap, operations, ← listed, List.flatMap_map, listed]
    exact List.flatMap_congr fun e he => List.map_fst_zip (Nat.le_of_eq (fits e he).symm)
  rw [← ids, declares.ids, first, ← declared, List.length_map, List.range_eq_range']

theorem zip_drafts {drafts : List Draft}
    (ids : drafts.map (·.block.id) = List.range' 0 s.blocks.length) :
    (s.blocks.zip drafts).map (fun e => (e.1, e.2.block.id)) = s.blocks.zipIdx := by
  rw [List.zipIdx_eq_zip_range', ← ids, List.zip_map_right]
  rfl

end Build

open Build in
theorem faithful_of_program {s : Scenario} {p : Program} (h : s.program = .ok p) :
    s.Faithful p := by
  have wellFormed : s.WellFormed := s.program_decides.ok_iff.mp ⟨p, h⟩
  obtain ⟨w, hw, h⟩ := Outcome.bind_eq_ok.mp h
  obtain ⟨⟨drafts, scope⟩, hdecl, h⟩ := Outcome.bind_eq_ok.mp h
  obtain ⟨root, hroot, h⟩ := Outcome.bind_eq_ok.mp h
  obtain ⟨inputs, hinputs, h⟩ := Outcome.bind_eq_ok.mp h
  obtain ⟨w', hw', h⟩ := Outcome.bind_eq_ok.mp h
  cases h
  have stocks := (workspace_decides s).spec_of_ok hw
  have fresh := workspace_fresh hw
  have unseen : Views { workspace := w } [] := ⟨fun _ => .none, by simp [OrdMap.contains]⟩
  have drafted := (declareBlocks_decides unseen .nil .nil).spec_of_ok hdecl
  have nowhere : Places { workspace := w } [] :=
    ⟨fresh.nextBlock, fresh.nextOperation, by simp, by simp⟩
  obtain ⟨places, sketched⟩ := declareBlocks_places nowhere hdecl
  have storages : scope.workspace.storages = w.storages := drafted.storages
  have known : Knows { scope with workspace := scope.workspace.newModule.2 } s :=
    ⟨⟨places.nextBlock, places.nextOperation, places.results, places.arguments⟩,
      (congrArg _ storages).trans stocks.storages, wellFormed⟩
  have stocked : Stocks s s.storages scope.workspace.newModule.2 :=
    stocks.congr drafted.operators storages
  have listed : (s.blocks.zip drafts).map (·.1) = s.blocks :=
    List.map_fst_zip (Nat.le_of_eq drafted.fits.length_eq)
  have positions := zip_drafts (fresh.nextBlock ▸ drafted.ids)
  have ready : ∀ e, e ∈ s.blocks.zip drafts → Sketches e.1 e.2.block ∧
      s.blocks[e.2.block.id]? = some e.1 ∧ e.2.ids.length = e.1.operations.length := by
    intro e he
    rw [List.forall₂_map_right_iff] at sketched
    refine ⟨List.forall₂_zip sketched he, ?_, (List.forall₂_zip drafted.fits he).ids⟩
    rw [← List.mem_zipIdx_iff_getElem? (x := (e.1, e.2.block.id)), ← positions]
    exact List.mem_map_of_mem he
  have filled := fillBlocks_fill known stocked rfl ready hroot
  refine ⟨?_, ?_, storages_lowered known ?_ hinputs hw'⟩
  · rw [← positions, List.forall₂_map_left_iff, filled.id]
    exact filled.blocks
  · rw [filled.ids]
    exact ids_eq_range fresh.nextOperation (declareBlocks_spec hdecl).2.1 listed
      fun e he => (ready e he).2.2
  · exact storages.trans fresh.storages

end Scenario

/-! ## Nothing is missing -/

namespace Program

/-- The value is read by an operation, bound to an output of a block or written into a storage. -/
inductive Uses (p : Program) (v : Value) : Prop where
  | input {o : Operation} (member : o ∈ p.root.operations) (reads : v ∈ o.inputs)
  | output {b : Block} {name : String} (member : b ∈ p.root.blocks)
      (bound : b.results.find? name = some v)
  | stored {st : Storage} (member : st ∈ p.workspace.storages) (written : v ∈ st.inputs)

/-- What the value names is part of the program. -/
def Provides (p : Program) : Value → Prop
  | .result id index => ∃ o, o ∈ p.root.operations ∧ o.id = id ∧ index < o.outputCount
  | .argument block index => ∃ b, b ∈ p.root.blocks ∧ b.id = block ∧ index < b.inputs.size
  | .stored id => ∃ st, st ∈ p.workspace.storages ∧ st.id = id
  | .any => True
  | .constant _ => True

end Program

namespace Scenario

variable {s : Scenario} {p : Program}

theorem Faithful.operations (faithful : s.Faithful p) :
    List.Forall₂ (fun d o => ∃ block, OperationDecl.Lowered s block d o) s.operations
      p.root.operations := by
  have declared : s.operations = s.blocks.zipIdx.flatMap fun e => e.1.operations := by
    rw [← List.flatMap_map, List.zipIdx_map_fst]
    rfl
  rw [declared]
  refine List.rel_flatMap faithful.blocks fun e b lowered => ?_
  exact lowered.operations.imp fun _ _ h => ⟨e.2, h⟩

theorem Faithful.id_eq (faithful : s.Faithful p) {rank : Nat} {o : Operation}
    (ho : p.root.operations[rank]? = some o) : o.id = rank := by
  have hid : (p.root.operations.map (·.id))[rank]? = some o.id := by
    rw [List.getElem?_map, ho]
    rfl
  rw [faithful.ids] at hid
  obtain ⟨hlt, e⟩ := List.getElem?_eq_some_iff.mp hid
  rw [List.getElem_range] at e
  exact e.symm

theorem Faithful.provides_argument (faithful : s.Faithful p) {block index : Nat} {b : BlockDecl}
    {input : String} (declared : s.blocks[block]? = some b)
    (position : b.inputNames[index]? = some input) : p.Provides (.argument block index) := by
  have listed : s.blocks.zipIdx[block]? = some (b, block) := by
    simp [List.getElem?_zipIdx, declared]
  obtain ⟨lowered, hlowered, h⟩ := Outcome.getElem?_of_forall₂ faithful.blocks listed
  refine ⟨lowered, List.mem_of_getElem? hlowered, h.id, ?_⟩
  rw [Decls.size, h.inputs, List.length_map, ← List.length_map (f := (·.name))]
  exact (List.getElem?_eq_some_iff.mp position).1

theorem Denotes.provided (faithful : s.Faithful p) {inside : Option Nat} {r : Reference}
    {v : Value} (h : s.Denotes inside r v) : p.Provides v := by
  cases h with
  | any => trivial
  | result declared position =>
      obtain ⟨o, ho, block, lowered⟩ := Outcome.getElem?_of_forall₂ faithful.operations declared
      have hlt := (List.getElem?_eq_some_iff.mp position).1
      exact ⟨o, List.mem_of_getElem? ho, faithful.id_eq ho,
        Nat.lt_of_lt_of_le hlt lowered.results⟩
  | @stored index d declared =>
      have listed : s.storages.zipIdx[index]? = some (d, index) := by
        simp [List.getElem?_zipIdx, declared]
      obtain ⟨st, hst, lowered⟩ := Outcome.getElem?_of_forall₂ faithful.storages listed
      exact ⟨st, List.mem_of_getElem? hst, lowered.id⟩
  | own here declared position => exact faithful.provides_argument declared position
  | foreign declared position => exact faithful.provides_argument declared position
  | constant number => trivial

/-- Every value in the program is there because some reference denotes it. -/
theorem Faithful.denoted (faithful : s.Faithful p) {v : Value} (h : p.Uses v) :
    ∃ inside r, s.Denotes inside r v := by
  cases h with
  | input member reads =>
      obtain ⟨d, -, block, lowered⟩ := Outcome.exists_left_of_forall₂ faithful.operations member
      obtain ⟨input, -, denotes⟩ := Outcome.exists_left_of_forall₂ lowered.inputs reads
      cases denotes with
      | constant number => exact ⟨none, _, .constant number⟩
      | reference refers =>
          obtain ⟨r, -, denotes⟩ := refers
          exact ⟨_, r, denotes⟩
  | @output b name member bound =>
      obtain ⟨e, -, lowered⟩ := Outcome.exists_left_of_forall₂ faithful.blocks member
      have related := lowered.results name
      rw [bound] at related
      generalize e.1.results.find? name = text at related
      cases related with
      | some refers =>
          obtain ⟨r, -, denotes⟩ := refers
          exact ⟨_, r, denotes⟩
  | stored member written =>
      obtain ⟨e, -, lowered⟩ := Outcome.exists_left_of_forall₂ faithful.storages member
      obtain ⟨values, refer, same⟩ := lowered.inputs
      rw [same, OrdSet.mem_ofList] at written
      obtain ⟨text, -, r, -, denotes⟩ := Outcome.exists_left_of_forall₂ refer written
      exact ⟨none, r, denotes⟩

/-- A program is what its scenario describes and has everything that it uses. A reference denotes
one value, and a number the same value as its numeral. -/
theorem program_faithful (h : s.program = .ok p) :
    s.Faithful p ∧ (∀ v, p.Uses v → p.Provides v) ∧
      (∀ inside text v w, s.Refers inside text v → s.Refers inside text w → v = w) ∧
        ∀ scope owner (number : Int64),
          Build.toInput scope owner (.constant number) = .ok (.constant number) ∧
            Build.toInput scope owner (.reference (toString number.toInt)) =
              .ok (.constant number) := by
  have faithful := faithful_of_program h
  refine ⟨faithful, fun v used => ?_, fun _ _ _ _ => ?_, fun scope owner number => ⟨rfl, ?_⟩⟩
  · obtain ⟨inside, r, denotes⟩ := faithful.denoted used
    exact denotes.provided faithful
  · exact Refers.unique (s.program_decides.ok_iff.mp ⟨p, h⟩)
  · exact Build.toInput_toString scope owner number

namespace Crossing

/-- References to other blocks, to a storage, to an operation that comes later, and a numeral. -/
def scenario : Scenario where
  operators := [⟨"core.pair", 2⟩]
  storages := [⟨"log", none, []⟩, ⟨"db", some "entity<Users>", ["%second", "arg:source.x"]⟩]
  blocks := [
    { name := "source", inputs := [⟨"w", none⟩, ⟨"x", none⟩],
      operations := [⟨["%read"], "core.pair", .empty, [.reference "arg:x"]⟩] },
    { name := "main", inputs := [⟨"y", some "primitive"⟩], outputs := [⟨"out", none⟩],
      results := .ofList [("out", "%first")],
      operations := [
        ⟨[], "core.pair", .ofList [("depth", .integer 2)],
          [.reference "%second", .reference "arg:y", .reference "arg:source.x", .constant (-3)]⟩,
        ⟨["%first", "%second"], "core.pair", .empty,
          [.reference "store:db", .reference "any", .reference "-3"]⟩] }]
  policy := { kind := .sql, checker := .rescan }

theorem program_faithful_scenario :
    ∃ p, scenario.program = .ok p ∧ scenario.Faithful p ∧ (∀ v, p.Uses v → p.Provides v) ∧
      p.root.operations.map (·.inputs) =
        [[.argument 0 1], [.result 2 1, .argument 1 0, .argument 0 1, .constant (-3)],
          [.stored 1, .any, .constant (-3)]] := by
  have found : ∃ p, scenario.program = .ok p ∧ p.root.operations.map (·.inputs) =
      [[.argument 0 1], [.result 2 1, .argument 1 0, .argument 0 1, .constant (-3)],
        [.stored 1, .any, .constant (-3)]] := by decide +kernel
  obtain ⟨p, h, inputs⟩ := found
  obtain ⟨faithful, provided, -⟩ := program_faithful h
  exact ⟨p, h, faithful, provided, inputs⟩

end Crossing

end Scenario

end TagFlow
