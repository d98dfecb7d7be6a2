import Mathlib.Data.List.Nodup
import TagFlow.Proofs.Program.Rearranged

/-! # The order in which operations occur

An operation is found by its address: the position of its block and its position there, and so on
inwards for what implements an operation. Operations occur in the lexicographic order of their
addresses, which puts an operation before all that implement it, and otherwise follows the
positions of blocks and operations.
-/

namespace TagFlow

/-! ## Addresses -/

/-- What is found at an address inside an operation, the operation itself at the empty one. -/
def Operation.at? (o : Operation) : List Nat → Option Operation
  | [] => some o
  | [_] => none
  | b :: i :: rest => do
      let block ← (← o.body).blocks[b]?
      (← block.operations[i]?).at? rest

def Block.at? (b : Block) : List Nat → Option Operation
  | [] => none
  | i :: rest => do (← b.operations[i]?).at? rest

def Module.at? (m : Module) : List Nat → Option Operation
  | [] => none
  | b :: rest => do (← m.blocks[b]?).at? rest

theorem Operation.at?_cons (o : Operation) (b : Nat) (rest : List Nat) :
    o.at? (b :: rest) = o.body.bind fun m => m.at? (b :: rest) := by
  cases hbody : o.body with
  | none => cases rest <;> simp [Operation.at?, hbody]
  | some m =>
      cases rest with
      | nil => cases m.blocks[b]? <;> simp [Operation.at?, Module.at?, Block.at?]
      | cons i rest => simp [Operation.at?, hbody, Module.at?, Block.at?]

/-- The addresses at which there is something, in order, and what is found at them. -/
structure Enumerates (find : List Nat → Option Operation) (found : List Operation)
    (places : List (List Nat)) : Prop where
  ordered : places.Pairwise (· < ·)
  complete : ∀ a, (find a).isSome = true → a ∈ places
  found : places.map find = found.map some

namespace Enumerates

variable {find : List Nat → Option Operation} {found : List Operation}
  {places : List (List Nat)}

theorem mem_iff (h : Enumerates find found places) {a : List Nat} :
    a ∈ places ↔ (find a).isSome = true := by
  refine ⟨fun ha => ?_, h.complete a⟩
  have hmem : find a ∈ found.map some := h.found ▸ List.mem_map_of_mem ha
  obtain ⟨o, -, ho⟩ := List.mem_map.mp hmem
  rw [← ho]
  rfl

theorem mem_found (h : Enumerates find found places) {o : Operation} :
    o ∈ found ↔ ∃ a, find a = some o := by
  have listed : o ∈ found ↔ some o ∈ places.map find := by
    rw [h.found]
    simp
  rw [listed, List.mem_map]
  constructor
  · rintro ⟨a, -, ha⟩
    exact ⟨a, ha⟩
  · rintro ⟨a, ha⟩
    exact ⟨a, h.complete a (by simp [ha]), ha⟩

theorem after {before after : List Operation} {o : Operation}
    (h : Enumerates find (before ++ o :: after) places) :
    ∃ a, find a = some o ∧ ∀ b other, a < b → find b = some other → other ∈ after := by
  have split := h.found
  rw [List.map_append, List.map_cons] at split
  obtain ⟨lower, upper, rfl, -, split⟩ := List.map_eq_append_iff.mp split
  obtain ⟨a, greater, rfl, ha, hgreater⟩ := List.map_eq_cons_iff.mp split
  refine ⟨a, ha, fun b other hlt hb => ?_⟩
  have ordered := List.pairwise_append.mp h.ordered
  rcases List.mem_append.mp (h.complete b (by simp [hb])) with hmem | hmem
  · exact absurd (ordered.2.2 b hmem a List.mem_cons_self) (List.lt_asymm hlt)
  · rcases List.mem_cons.mp hmem with rfl | hmem
    · exact absurd hlt (List.lt_irrefl _)
    · have hother : find b ∈ after.map some := hgreater ▸ List.mem_map_of_mem hmem
      simpa [hb] using hother

/-- One level out: the address begins with a position in a list. -/
theorem flatMap {α : Type} {xs : List α} {find : α → List Nat → Option Operation}
    {found : α → List Operation} {places : α → List (List Nat)}
    (each : ∀ x, x ∈ xs → Enumerates (find x) (found x) (places x))
    {outer : List Nat → Option Operation} (nil : outer [] = none)
    (cons : ∀ i rest, outer (i :: rest) = xs[i]?.bind fun x => find x rest) :
    Enumerates outer (xs.flatMap found)
      (xs.zipIdx.flatMap fun e => (places e.1).map (e.2 :: ·)) := by
  have within : ∀ e, e ∈ xs.zipIdx → e.1 ∈ xs ∧ xs[e.2]? = some e.1 := by
    intro e he
    have hget := List.mem_zipIdx_iff_getElem?.mp he
    exact ⟨List.mem_of_getElem? hget, hget⟩
  constructor
  case ordered =>
    have indices : xs.zipIdx.Pairwise fun d e => d.2 < e.2 := by
      rw [← List.pairwise_map (f := Prod.snd), List.zipIdx_map_snd]
      exact List.pairwise_lt_range'
    rw [List.pairwise_flatMap]
    constructor
    · intro e he
      rw [List.pairwise_map]
      exact (each e.1 (within e he).1).ordered.imp fun hlt =>
        List.cons_lt_cons_iff.mpr (.inr ⟨rfl, hlt⟩)
    · refine indices.imp fun hlt a ha b hb => ?_
      obtain ⟨a, -, rfl⟩ := List.mem_map.mp ha
      obtain ⟨b, -, rfl⟩ := List.mem_map.mp hb
      exact List.cons_lt_cons_iff.mpr (.inl hlt)
  case complete =>
    intro a ha
    cases a with
    | nil => simp [nil] at ha
    | cons i rest =>
        rw [cons] at ha
        cases hx : xs[i]? with
        | none => simp [hx] at ha
        | some x =>
            rw [hx, Option.bind_some] at ha
            have hrest := (each x (List.mem_of_getElem? hx)).complete rest ha
            exact List.mem_flatMap.mpr ⟨(x, i), List.mem_zipIdx_iff_getElem?.mpr hx,
              List.mem_map_of_mem hrest⟩
  case found =>
    have same : ∀ e, e ∈ xs.zipIdx →
        ((places e.1).map (e.2 :: ·)).map outer = (found e.1).map some := by
      intro e he
      obtain ⟨hmem, hget⟩ := within e he
      rw [← (each e.1 hmem).found, List.map_map]
      refine List.map_congr_left fun rest _ => ?_
      rw [Function.comp_apply, cons, hget, Option.bind_some]
    calc
      (xs.zipIdx.flatMap fun e => (places e.1).map (e.2 :: ·)).map outer =
          xs.zipIdx.flatMap fun e => ((places e.1).map (e.2 :: ·)).map outer := List.map_flatMap
      _ = xs.zipIdx.flatMap fun e => (found e.1).map some := List.flatMap_congr same
      _ = (xs.zipIdx.map Prod.fst).flatMap fun x => (found x).map some := by
        rw [List.flatMap_map]
      _ = (xs.flatMap found).map some := by rw [List.zipIdx_map_fst, List.map_flatMap]

theorem operation {o : Operation}
    (h : ∀ m, o.body = some m → ∃ places, Enumerates m.at? m.occurrences places) :
    ∃ places, Enumerates o.at? o.occurrences places := by
  cases hbody : o.body with
  | none =>
      refine ⟨[[]], by simp, ?_, by simp [Operation.at?, Operation.occurrences, hbody]⟩
      intro a ha
      cases a with
      | nil => simp
      | cons b rest => simp [Operation.at?_cons, hbody] at ha
  | some m =>
      obtain ⟨places, inner⟩ := h m hbody
      have nonempty : ∀ a, a ∈ places → a ≠ [] := by
        rintro a ha rfl
        exact absurd (inner.mem_iff.mp ha) (by simp [Module.at?])
      have same : ∀ a, a ≠ [] → o.at? a = m.at? a := by
        intro a ha
        obtain ⟨b, rest, rfl⟩ := List.exists_cons_of_ne_nil ha
        rw [Operation.at?_cons, hbody, Option.bind_some]
      refine ⟨[] :: places, ?_, ?_, ?_⟩
      · refine List.pairwise_cons.mpr ⟨fun a ha => ?_, inner.ordered⟩
        obtain ⟨b, rest, rfl⟩ := List.exists_cons_of_ne_nil (nonempty a ha)
        exact List.nil_lt_cons b rest
      · intro a ha
        by_cases e : a = []
        · simp [e]
        · rw [same a e] at ha
          exact List.mem_cons_of_mem _ (inner.complete a ha)
      · rw [List.map_cons, List.map_congr_left fun a ha => same a (nonempty a ha), inner.found]
        simp [Operation.at?, Operation.occurrences, hbody]

end Enumerates

/-! ## Whole modules -/

/-- What holds of a module if it holds of what implements its operations. -/
def Module.Inductive (P : Module → Prop) : Prop :=
  ∀ m : Module, (∀ o, o ∈ m.operations → ∀ body, o.body = some body → P body) → P m

mutual

theorem Module.induct {P : Module → Prop} (step : Module.Inductive P) : (m : Module) → P m
  | ⟨_, blocks⟩ => step _ (induct_blocks step blocks)

theorem induct_blocks {P : Module → Prop} (step : Module.Inductive P) : (blocks : List Block) →
    ∀ o, o ∈ blocks.flatMap Block.operations → ∀ body, o.body = some body → P body
  | [] => fun _ ho => absurd ho (by simp)
  | ⟨_, _, _, _, _, operations⟩ :: rest => fun o ho => by
      rcases List.mem_append.mp (List.flatMap_cons ▸ ho) with ho | ho
      · exact induct_operations step operations o ho
      · exact induct_blocks step rest o ho

theorem induct_operations {P : Module → Prop} (step : Module.Inductive P) :
    (ops : List Operation) → ∀ o, o ∈ ops → ∀ body, o.body = some body → P body
  | [] => fun _ ho => absurd ho (by simp)
  | ⟨_, _, _, _, _, none⟩ :: rest => fun o ho body hbody => by
      rcases List.mem_cons.mp ho with rfl | ho
      · cases hbody
      · exact induct_operations step rest o ho body hbody
  | ⟨_, _, _, _, _, some inner⟩ :: rest => fun o ho body hbody => by
      rcases List.mem_cons.mp ho with rfl | ho
      · cases hbody
        exact Module.induct step inner
      · exact induct_operations step rest o ho body hbody

end

theorem Module.occurrences_eq_flatMap (m : Module) :
    m.occurrences = m.blocks.flatMap fun b => b.operations.flatMap Operation.occurrences := by
  obtain ⟨id, blocks⟩ := m
  rw [Module.occurrences, occurrencesInBlocks_eq_flatMap]
  simp only [occurrencesInOperations_eq_flatMap]

/-- Operations occur in the order of their addresses. -/
theorem Module.exists_places (m : Module) : ∃ places, Enumerates m.at? m.occurrences places := by
  refine Module.induct (P := fun m => ∃ places, Enumerates m.at? m.occurrences places) ?_ m
  intro m ih
  have own : ∀ o, ∃ places, o ∈ m.operations → Enumerates o.at? o.occurrences places := by
    intro o
    by_cases ho : o ∈ m.operations
    · obtain ⟨places, h⟩ := Enumerates.operation (ih o ho)
      exact ⟨places, fun _ => h⟩
    · exact ⟨[], fun h => absurd h ho⟩
  choose places hplaces using own
  have inBlock : ∀ b, b ∈ m.blocks → Enumerates b.at? (b.operations.flatMap Operation.occurrences)
      (b.operations.zipIdx.flatMap fun e => (places e.1).map (e.2 :: ·)) :=
    fun b hb => .flatMap (fun o ho => hplaces o (List.mem_flatMap.mpr ⟨b, hb, ho⟩)) rfl
      fun _ _ => rfl
  rw [m.occurrences_eq_flatMap]
  exact ⟨_, Enumerates.flatMap inBlock rfl fun _ _ => rfl⟩

/-- The operation is found at some address. -/
def Module.Occurs (m : Module) (o : Operation) : Prop :=
  ∃ a, m.at? a = some o

theorem Module.mem_occurrences {m : Module} {o : Operation} :
    o ∈ m.occurrences ↔ m.Occurs o := by
  obtain ⟨places, h⟩ := m.exists_places
  exact h.mem_found

end TagFlow
