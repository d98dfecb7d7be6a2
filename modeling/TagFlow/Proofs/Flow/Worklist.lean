import TagFlow.Flow.Worklist
import TagFlow.Proofs.Flow.Graph
import TagFlow.Proofs.Outcome

/-! # The invariant of the worklist

Every operation waits in the queue, is settled, or is dormant. A settled operation has
entries for its outputs, and evaluating it again on the present states would not raise
them. A dormant one has no entries and reads only results about which nothing is known.
Evaluating one operation keeps this for all operations, whatever the transfer function
does, because exactly the readers of raised values are queued again.
-/

namespace TagFlow

/-- Joining takes least upper bounds, and `bottom` is below every state. -/
structure Analysis.JoinLaws {σ : Type} (a : Analysis σ) : Prop where
  bottom_join : ∀ s, a.join a.bottom s = s
  join_self : ∀ s, a.join s s = s
  join_comm : ∀ s t, a.join s t = a.join t s
  join_assoc : ∀ s t u, a.join (a.join s t) u = a.join s (a.join t u)

namespace Analysis.JoinLaws

variable {σ : Type} {a : Analysis σ}

theorem join_join_right (laws : a.JoinLaws) (s t : σ) :
    a.join (a.join s t) t = a.join s t := by
  rw [laws.join_assoc, laws.join_self]

theorem join_join_left (laws : a.JoinLaws) (s t : σ) :
    a.join s (a.join s t) = a.join s t := by
  rw [← laws.join_assoc, laws.join_self]

/-- A state never falls back to `bottom`. -/
theorem eq_bottom_of_join (laws : a.JoinLaws) {s t : σ} (h : a.join s t = a.bottom) :
    s = a.bottom := by
  have hs : a.join s a.bottom = s := by rw [laws.join_comm, laws.bottom_join]
  rw [← hs, ← h, laws.join_join_left, h]

end Analysis.JoinLaws

namespace Worklist

variable {σ : Type}

/-! ## Queues -/

theorem mem_enqueue {queue : List OperationId} {id x : OperationId} :
    x ∈ enqueue queue id ↔ x ∈ queue ∨ x = id := by
  unfold enqueue
  split
  · rename_i h
    constructor
    · exact .inl
    · rintro (hx | rfl)
      · exact hx
      · exact h
  · simp

theorem nodup_enqueue {queue : List OperationId} (h : queue.Nodup) (id : OperationId) :
    (enqueue queue id).Nodup := by
  unfold enqueue
  split
  · exact h
  · rename_i hid
    rw [List.nodup_append]
    refine ⟨h, by simp, ?_⟩
    intro x hx y hy e
    rw [List.mem_singleton.mp hy] at e
    exact hid (e ▸ hx)

theorem mem_foldl_enqueue {uses : List (Nat × OperationId)} {queue : List OperationId}
    {x : OperationId} :
    x ∈ uses.foldl (fun queue use => enqueue queue use.2) queue ↔
      x ∈ queue ∨ ∃ i, (i, x) ∈ uses := by
  induction uses generalizing queue with
  | nil => simp
  | cons use uses ih =>
      rw [List.foldl_cons, ih, mem_enqueue]
      constructor
      · rintro ((h | rfl) | ⟨i, h⟩)
        · exact .inl h
        · exact .inr ⟨use.1, by simp⟩
        · exact .inr ⟨i, by simp [h]⟩
      · rintro (h | ⟨i, h⟩)
        · exact .inl (.inl h)
        · rcases List.mem_cons.mp h with h | h
          · exact .inl (.inr (by rw [← h]))
          · exact .inr ⟨i, h⟩

theorem nodup_foldl_enqueue {queue : List OperationId} (h : queue.Nodup)
    (uses : List (Nat × OperationId)) :
    (uses.foldl (fun queue use => enqueue queue use.2) queue).Nodup := by
  induction uses generalizing queue with
  | nil => exact h
  | cons use uses ih => exact ih (nodup_enqueue h use.2)

/-- Some operation with this id reads the value. -/
def Reads (ops : List Operation) (id : OperationId) (v : Value) : Prop :=
  ∃ o, o ∈ ops ∧ o.id = id ∧ v ∈ o.inputs

theorem wake_ok {ops : List Operation} {o : Operation} {v : Value} (ho : o ∈ ops)
    (hv : v ∈ o.inputs ∨ v ∈ o.outputs) (p : Progress σ) :
    ∃ queue, wake (.ofOperations ops) p v = .ok { p with queue } ∧
      (∀ x, x ∈ queue ↔ x ∈ p.queue ∨ Reads ops x v) ∧ (p.queue.Nodup → queue.Nodup) := by
  obtain ⟨uses, hu, hmem⟩ := FlowGraph.uses_ok ho hv
  refine ⟨_, by rw [wake, hu]; rfl, ?_, fun h => nodup_foldl_enqueue h uses⟩
  intro x
  rw [mem_foldl_enqueue]
  have : (∃ i, (i, x) ∈ uses) ↔ Reads ops x v := by
    constructor
    · rintro ⟨i, hi⟩
      obtain ⟨o', ho', hid, hx⟩ := (hmem i x).mp hi
      exact ⟨o', ho', hid, List.mem_of_getElem? hx⟩
    · rintro ⟨o', ho', hid, hx⟩
      obtain ⟨i, hi⟩ := List.getElem?_of_mem hx
      exact ⟨i, (hmem i x).mpr ⟨o', ho', hid, hi⟩⟩
  rw [this]

/-! ## States -/

theorem stateOf_of_find? {a : Analysis σ} {states : States σ} {v : Value} {s : σ}
    (h : states.find? v = some s) : stateOf a states v = s := by
  rw [stateOf, h]
  rfl

/-- Only an entry can be above `bottom`. -/
theorem find?_of_stateOf {a : Analysis σ} {states : States σ} {v : Value} {s : σ}
    (h : stateOf a states v = s) (hs : s ≠ a.bottom) : states.find? v = some s := by
  unfold stateOf at h
  cases hf : states.find? v with
  | none => exact absurd (by simpa [hf] using h.symm) hs
  | some t => simpa [hf] using h

theorem stateOf_congr {a : Analysis σ} {states states' : States σ} {v : Value}
    (h : states.find? v = states'.find? v) : stateOf a states v = stateOf a states' v := by
  rw [stateOf, stateOf, h]

/-- Operations of which nothing is known yet: their outputs have no entries, and they
read only results that are at `bottom`. -/
def Dormant (a : Analysis σ) (states : States σ) (o : Operation) : Prop :=
  o.inputs ≠ [] ∧ (∀ v, v ∈ o.inputs → v.isResult = true ∧ stateOf a states v = a.bottom) ∧
    ∀ i : Nat, states.find? (.result o.id i) = none

/-- Evaluating the operation again changes nothing. -/
def Settled (a : Analysis σ) (states : States σ) (o : Operation) : Prop :=
  ∃ outs, a.transfer o (o.inputs.map (stateOf a states)) = .ok outs ∧
    outs.length = o.outputCount ∧
    ∀ (i : Nat) (s : σ), outs[i]? = some s →
      ∃ t, states.find? (.result o.id i) = some t ∧ a.join t s = t

/-- There is a reason to evaluate the operation: it has no inputs, it reads a value from
outside, or something is known about an input. -/
def Awake (a : Analysis σ) (states : States σ) (o : Operation) : Prop :=
  o.inputs = [] ∨ (∃ v, v ∈ o.inputs ∧ v.isResult = false) ∨
    ∃ v, v ∈ o.inputs ∧ stateOf a states v ≠ a.bottom

theorem Dormant.not_awake {a : Analysis σ} {states : States σ} {o : Operation}
    (h : Dormant a states o) : ¬ Awake a states o := by
  obtain ⟨hne, hin, -⟩ := h
  rintro (he | ⟨v, hv, hr⟩ | ⟨v, hv, hs⟩)
  · exact hne he
  · rw [(hin v hv).1] at hr
    exact Bool.noConfusion hr
  · exact hs (hin v hv).2

section

variable {a : Analysis σ} {states states' : States σ} {o : Operation}

/-- Only the states of inputs and the entries of outputs matter. -/
theorem Settled.kept (h : Settled a states o)
    (inputs : ∀ v, v ∈ o.inputs → stateOf a states' v = stateOf a states v)
    (outputs : ∀ i : Nat, states'.find? (.result o.id i) = states.find? (.result o.id i)) :
    Settled a states' o := by
  obtain ⟨outs, houts, hlen, hjoin⟩ := h
  refine ⟨outs, by rw [List.map_congr_left inputs]; exact houts, hlen, ?_⟩
  intro i s hi
  rw [outputs i]
  exact hjoin i s hi

theorem Dormant.kept (h : Dormant a states o)
    (inputs : ∀ v, v ∈ o.inputs → stateOf a states' v = stateOf a states v)
    (outputs : ∀ i : Nat, states'.find? (.result o.id i) = states.find? (.result o.id i)) :
    Dormant a states' o := by
  obtain ⟨hne, hbottom, hnone⟩ := h
  refine ⟨hne, ?_, fun i => (outputs i).trans (hnone i)⟩
  intro v hv
  rw [inputs v hv]
  exact hbottom v hv

end

/-- States only rise, entries stay, and values from outside are left alone. -/
structure Grown (a : Analysis σ) (states states' : States σ) : Prop where
  entry : ∀ v, (states.find? v).isSome = true → (states'.find? v).isSome = true
  known : ∀ v, stateOf a states v ≠ a.bottom → stateOf a states' v ≠ a.bottom
  outside : ∀ v, v.isResult = false → states'.find? v = states.find? v

theorem Awake.grown {a : Analysis σ} {states states' : States σ} {o : Operation}
    (h : Awake a states o) (grown : Grown a states states') : Awake a states' o := by
  rcases h with h | h | ⟨v, hv, hs⟩
  · exact .inl h
  · exact .inr (.inl h)
  · exact .inr (.inr ⟨v, hv, grown.known v hs⟩)

/-! ## One output

`Raised` says what joining new states to some values does: which values, and by what, is
given by `new`. -/

/-- The values in the domain of `new` are raised by it and have entries, all others are
left alone, and the readers of the values that have changed are queued. -/
structure Raised (a : Analysis σ) (ops : List Operation) (p : Progress σ)
    (new : Value → Option σ) (p' : Progress σ) : Prop where
  raised : ∀ v s, new v = some s → p'.states.find? v = some (a.join (stateOf a p.states v) s)
  kept : ∀ v, new v = none → p'.states.find? v = p.states.find? v
  queue : ∀ x, x ∈ p'.queue ↔
    x ∈ p.queue ∨ ∃ v, stateOf a p'.states v ≠ stateOf a p.states v ∧ Reads ops x v
  nodup : p.queue.Nodup → p'.queue.Nodup

theorem Raised.stateOf_raised {a : Analysis σ} {ops : List Operation} {p p' : Progress σ}
    {new : Value → Option σ} (h : Raised a ops p new p') {v : Value} {s : σ}
    (hv : new v = some s) : stateOf a p'.states v = a.join (stateOf a p.states v) s :=
  stateOf_of_find? (h.raised v s hv)

theorem Raised.stateOf_kept {a : Analysis σ} {ops : List Operation} {p p' : Progress σ}
    {new : Value → Option σ} (h : Raised a ops p new p') {v : Value} (hv : new v = none) :
    stateOf a p'.states v = stateOf a p.states v :=
  stateOf_congr (h.kept v hv)

theorem Raised.comp {a : Analysis σ} {ops : List Operation} {p mid p' : Progress σ}
    {new new' : Value → Option σ} (first : Raised a ops p new mid)
    (second : Raised a ops mid new' p') (apart : ∀ v, new v = none ∨ new' v = none) :
    Raised a ops p (fun v => (new v).or (new' v)) p' := by
  have changed : ∀ v, stateOf a p'.states v ≠ stateOf a p.states v ↔
      stateOf a mid.states v ≠ stateOf a p.states v ∨
        stateOf a p'.states v ≠ stateOf a mid.states v := by
    intro v
    rcases apart v with h | h
    · simp [first.stateOf_kept h]
    · simp [second.stateOf_kept h]
  constructor
  case raised =>
    intro v s hnew
    rcases apart v with h | h
    · rw [h, Option.none_or] at hnew
      rw [second.raised v s hnew, first.stateOf_kept h]
    · rw [h, Option.or_none] at hnew
      rw [second.kept v h]
      exact first.raised v s hnew
  case kept =>
    intro v hnew
    obtain ⟨h, h'⟩ := Option.or_eq_none_iff.mp hnew
    rw [second.kept v h', first.kept v h]
  case queue =>
    intro x
    rw [second.queue, first.queue]
    simp only [changed, or_and_right, exists_or, or_assoc]
  case nodup => exact second.nodup ∘ first.nodup

/-- One new state for one value. -/
def only (v : Value) (s : σ) : Value → Option σ := fun w => if w = v then some s else none

theorem of_only_eq_some {v w : Value} {s t : σ} (h : only v s w = some t) : w = v ∧ t = s := by
  unfold only at h
  split at h
  · rename_i hw
    cases h
    exact ⟨hw, rfl⟩
  · cases h

theorem only_eq_none {v w : Value} {s : σ} : only v s w = none ↔ w ≠ v := by
  simp [only]

/-- Writing the join is all there is to do besides queueing readers when it is new. -/
theorem raised_insert {a : Analysis σ} {ops : List Operation} {p : Progress σ} {v : Value} {s : σ}
    {queue : List OperationId}
    (hqueue : ∀ x, x ∈ queue ↔
      x ∈ p.queue ∨ (a.join (stateOf a p.states v) s ≠ stateOf a p.states v ∧ Reads ops x v))
    (hnodup : p.queue.Nodup → queue.Nodup) :
    Raised a ops p (only v s) ⟨p.states.insert v (a.join (stateOf a p.states v) s), queue⟩ := by
  have own := stateOf_of_find? (a := a)
    (OrdMap.find?_insert_self p.states v (a.join (stateOf a p.states v) s))
  have others : ∀ w, w ≠ v →
      (p.states.insert v (a.join (stateOf a p.states v) s)).find? w = p.states.find? w :=
    fun w hw => OrdMap.find?_insert_of_ne _ _ hw
  refine ⟨?_, fun w hw => others w (only_eq_none.mp hw), ?_, hnodup⟩
  · intro w t hw
    obtain ⟨rfl, rfl⟩ := of_only_eq_some hw
    exact OrdMap.find?_insert_self _ _ _
  · intro x
    rw [hqueue]
    constructor
    · intro h
      rcases h with h | ⟨hne, hread⟩
      · exact .inl h
      · exact .inr ⟨v, by rw [own]; exact hne, hread⟩
    · intro h
      rcases h with h | ⟨w, hw, hread⟩
      · exact .inl h
      · by_cases e : w = v
        · rw [e, own] at hw
          exact .inr ⟨hw, e ▸ hread⟩
        · exact absurd (stateOf_congr (others w e)) hw

theorem update_raised [DecidableEq σ] (a : Analysis σ) {ops : List Operation} {o : Operation}
    (ho : o ∈ ops) {v : Value} (hv : v ∈ o.outputs) (p : Progress σ) (s : σ) :
    ∃ p', update a (.ofOperations ops) p v s = .ok p' ∧
      Raised a ops p (only v s) p' := by
  by_cases hs : stateOf a p.states v = a.join (stateOf a p.states v) s
  · by_cases hc : p.states.contains v = true
    · obtain ⟨t, ht⟩ := Option.isSome_iff_exists.mp hc
      refine ⟨p, by simp only [update, ← hs, if_true, hc], ?_, fun w _ => rfl, by simp, id⟩
      intro w s' hw
      obtain ⟨rfl, rfl⟩ := of_only_eq_some hw
      rw [← hs, stateOf_of_find? ht, ht]
    · refine ⟨{ p with states := p.states.insert v (a.join (stateOf a p.states v) s) }, ?_, ?_⟩
      · simp only [update, ← hs, if_true, hc]
        rfl
      · apply raised_insert _ id
        intro x
        simp [← hs]
  · obtain ⟨queue, hwake, hmem, hnodup⟩ := wake_ok ho (.inr hv)
      { p with states := p.states.insert v (a.join (stateOf a p.states v) s) }
    have hqueue : ∀ x, x ∈ queue ↔ x ∈ p.queue ∨
        (a.join (stateOf a p.states v) s ≠ stateOf a p.states v ∧ Reads ops x v) := by
      intro x
      simp [hmem, Ne.symm hs]
    exact ⟨_, by simp only [update, hs, if_false]; exact hwake, raised_insert hqueue hnodup⟩

/-! ## All outputs -/

/-- The states of an operation's outputs from a position on, by value. -/
def outputStates (id : OperationId) (index : Nat) (outs : List σ) : Value → Option σ
  | .result other i => if other = id ∧ index ≤ i then outs[i - index]? else none
  | _ => none

theorem outputStates_nil (id : OperationId) (index : Nat) (v : Value) :
    outputStates id index ([] : List σ) v = none := by
  cases v <;> simp [outputStates]

theorem outputStates_result (id : OperationId) (outs : List σ) (i : Nat) :
    outputStates id 0 outs (.result id i) = outs[i]? := by
  simp [outputStates]

theorem outputStates_cons_self (id : OperationId) (index : Nat) (s : σ) (outs : List σ) :
    outputStates id index (s :: outs) (.result id index) = some s := by
  simp [outputStates]

theorem outputStates_cons_of_ne (id : OperationId) (index : Nat) (s : σ) (outs : List σ)
    {v : Value} (h : v ≠ .result id index) :
    outputStates id index (s :: outs) v = outputStates id (index + 1) outs v := by
  cases v with
  | result other i =>
      simp only [outputStates]
      by_cases hid : other = id
      · subst hid
        have hi : i ≠ index := fun e => h (by rw [e])
        by_cases hle : index ≤ i
        · have hsub : i - index = i - (index + 1) + 1 := by omega
          have hlt : index + 1 ≤ i := by omega
          simp [hle, hlt, hsub]
        · have hlt : ¬ index + 1 ≤ i := by omega
          simp [hle, hlt]
      · simp [hid]
  | _ => rfl

theorem outputStates_succ_self (id : OperationId) (index : Nat) (outs : List σ) :
    outputStates id (index + 1) outs (.result id index) = none := by
  have : ¬ index + 1 ≤ index := by omega
  simp [outputStates, this]

theorem outputStates_cons (id : OperationId) (index : Nat) (s : σ) (outs : List σ) (v : Value) :
    outputStates id index (s :: outs) v =
      (only (.result id index) s v).or (outputStates id (index + 1) outs v) := by
  by_cases e : v = .result id index
  · rw [e, outputStates_cons_self]
    simp [only]
  · rw [outputStates_cons_of_ne _ _ _ _ e, only_eq_none.mpr e, Option.none_or]

theorem updateAll_raised [DecidableEq σ] (a : Analysis σ) {ops : List Operation} {o : Operation}
    (ho : o ∈ ops) (outs : List σ) (index : Nat) (hlen : index + outs.length ≤ o.outputCount)
    (p : Progress σ) :
    ∃ p', updateAll a (.ofOperations ops) p o index outs = .ok p' ∧
      Raised a ops p (outputStates o.id index outs) p' := by
  induction outs generalizing index p with
  | nil =>
      refine ⟨p, rfl, ?_, fun _ _ => rfl, ?_, id⟩
      · intro v s h
        rw [outputStates_nil] at h
        cases h
      · simp
  | cons s outs ih =>
      rw [List.length_cons] at hlen
      have hv : Value.result o.id index ∈ o.outputs :=
        FlowGraph.mem_outputs.mpr ⟨index, by omega, rfl⟩
      obtain ⟨mid, hmid, first⟩ := update_raised a ho hv p s
      obtain ⟨p', hp', rest⟩ := ih (index + 1) (by omega) mid
      refine ⟨p', by rw [updateAll, hmid]; exact hp', ?_⟩
      rw [funext (outputStates_cons o.id index s outs)]
      apply first.comp rest
      intro v
      by_cases e : v = .result o.id index
      · exact .inr (e ▸ outputStates_succ_self o.id index outs)
      · exact .inl (only_eq_none.mpr e)

/-! ## The invariant -/

/-- What holds at every moment of a run. Operations are taken as they are looked up; only
an operation that occurs can be queued or have entries. -/
structure Invariant (a : Analysis σ) (ops : List Operation) (p : Progress σ) : Prop where
  nodup : p.queue.Nodup
  seeded : ∀ o, o ∈ (FlowGraph.ofOperations ops).operations →
    ∀ v, v ∈ o.inputs → v.isResult = false → p.states.find? v = some a.initial
  covered : ∀ o, o ∈ (FlowGraph.ofOperations ops).operations →
    o.id ∈ p.queue ∨ Settled a p.states o ∨ Dormant a p.states o
  awake : ∀ id, (id ∈ p.queue ∨ ∃ i : Nat, (p.states.find? (.result id i)).isSome = true) →
    ∃ o, o ∈ ops ∧ o.id = id ∧ Awake a p.states o

theorem outputStates_eq_none_of_ne {id id' : OperationId} (outs : List σ) (i : Nat)
    (h : id' ≠ id) : outputStates id 0 outs (.result id' i) = none := by
  simp [outputStates, h]

theorem mem_of_outputStates {id : OperationId} {outs : List σ} {v : Value} {s : σ}
    (h : outputStates id 0 outs v = some s) :
    s ∈ outs ∧ ∃ i : Nat, i < outs.length ∧ v = .result id i := by
  cases v with
  | result other i =>
      simp only [outputStates, Nat.zero_le, and_true, Nat.sub_zero] at h
      split at h
      · rename_i hid
        obtain ⟨hi, hs⟩ := List.getElem?_eq_some_iff.mp h
        exact ⟨hs ▸ List.getElem_mem hi, i, hi, by rw [hid]⟩
      · cases h
  | _ => cases h

theorem outputStates_of_not_result {v : Value} (h : v.isResult = false) (id : OperationId)
    (outs : List σ) : outputStates id 0 outs v = none := by
  cases v with
  | result _ _ => cases h
  | _ => rfl

theorem Raised.grown {a : Analysis σ} (laws : a.JoinLaws) {ops : List Operation}
    {p p' : Progress σ} {id : OperationId} {outs : List σ}
    (h : Raised a ops p (outputStates id 0 outs) p') : Grown a p.states p'.states := by
  refine ⟨?_, ?_, fun v hv => h.kept v (outputStates_of_not_result hv id outs)⟩
  · intro v hv
    cases hnew : outputStates id 0 outs v with
    | none => rwa [h.kept v hnew]
    | some s => rw [h.raised v s hnew]; rfl
  · intro v hv
    cases hnew : outputStates id 0 outs v with
    | none => rwa [h.stateOf_kept hnew]
    | some s =>
        rw [h.stateOf_raised hnew]
        exact fun e => hv (laws.eq_bottom_of_join e)

theorem Raised.known_of_changed {a : Analysis σ} (laws : a.JoinLaws) {ops : List Operation}
    {p p' : Progress σ} {new : Value → Option σ} (h : Raised a ops p new p') {v : Value}
    (hv : stateOf a p'.states v ≠ stateOf a p.states v) : stateOf a p'.states v ≠ a.bottom := by
  intro e
  cases hnew : new v with
  | none => exact hv (h.stateOf_kept hnew)
  | some s =>
      rw [h.stateOf_raised hnew] at e
      rw [h.stateOf_raised hnew, e, laws.eq_bottom_of_join e] at hv
      exact hv rfl

/-- The operation just evaluated is settled unless it reads what it has raised. -/
theorem Raised.settled {a : Analysis σ} (laws : a.JoinLaws) {ops : List Operation}
    {p p' : Progress σ} {o : Operation} {outs : List σ}
    (raised : Raised a ops p (outputStates o.id 0 outs) p')
    (houts : a.transfer o (o.inputs.map (stateOf a p.states)) = .ok outs)
    (hlen : outs.length = o.outputCount)
    (same : ∀ v, v ∈ o.inputs → stateOf a p'.states v = stateOf a p.states v) :
    Settled a p'.states o := by
  refine ⟨outs, by rw [List.map_congr_left same]; exact houts, hlen, ?_⟩
  intro i s hi
  have hnew : outputStates o.id 0 outs (.result o.id i) = some s := by
    rw [outputStates_result, hi]
  exact ⟨_, raised.raised _ s hnew, laws.join_join_right _ _⟩

variable [DecidableEq σ]

/-- A successful evaluation raises the outputs of the operation that is looked up by what
its transfer function says about the present states. -/
theorem evaluate_raised {a : Analysis σ} {ops : List Operation} {p p' : Progress σ}
    {id : OperationId} (h : evaluate a (.ofOperations ops) p id = .ok p') :
    ∃ o outs, (FlowGraph.ofOperations ops).lookup.find? id = some o ∧
      a.transfer o (o.inputs.map (stateOf a p.states)) = .ok outs ∧
      outs.length = o.outputCount ∧ Raised a ops p (outputStates id 0 outs) p' := by
  obtain ⟨o, ho, h⟩ := Outcome.bind_eq_ok.mp h
  obtain ⟨outs, houts, h⟩ := Outcome.bind_eq_ok.mp h
  rw [FlowGraph.operation_eq_ok] at ho
  obtain ⟨hmem, hid⟩ := FlowGraph.mem_of_lookup ho
  split at h
  · rename_i hlen
    obtain ⟨q, hq, raised⟩ := updateAll_raised a hmem outs 0 (by omega) p
    rw [h] at hq
    cases hq
    exact ⟨o, outs, ho, houts, hlen, hid ▸ raised⟩
  · cases h

theorem evaluate_covered {a : Analysis σ} (laws : a.JoinLaws) {ops : List Operation}
    {states : States σ} {id : OperationId} {rest : List OperationId} {p' : Progress σ}
    (inv : Invariant a ops ⟨states, id :: rest⟩)
    (h : evaluate a (.ofOperations ops) ⟨states, rest⟩ id = .ok p') :
    ∀ o, o ∈ (FlowGraph.ofOperations ops).operations →
      o.id ∈ p'.queue ∨ Settled a p'.states o ∨ Dormant a p'.states o := by
  obtain ⟨o₀, outs, hlook, houts, hlen, raised⟩ := evaluate_raised h
  intro o ho
  by_cases hin : ∃ v, v ∈ o.inputs ∧ stateOf a p'.states v ≠ stateOf a states v
  · obtain ⟨v, hv, hne⟩ := hin
    have hread : Reads ops o.id v :=
      ⟨o, (FlowGraph.mem_of_lookup (FlowGraph.mem_operations.mp ho)).1, rfl, hv⟩
    exact .inl ((raised.queue o.id).mpr (.inr ⟨v, hne, hread⟩))
  · have same : ∀ v, v ∈ o.inputs → stateOf a p'.states v = stateOf a states v := by
      intro v hv
      by_contra e
      exact hin ⟨v, hv, e⟩
    by_cases hid : o.id = id
    · have heq : o₀ = o := by
        have hfind := FlowGraph.mem_operations.mp ho
        rw [hid, hlook] at hfind
        exact Option.some.inj hfind
      subst heq hid
      exact .inr (.inl (raised.settled laws houts hlen same))
    · have kept : ∀ i : Nat, p'.states.find? (.result o.id i) = states.find? (.result o.id i) :=
        fun i => raised.kept _ (outputStates_eq_none_of_ne outs i hid)
      rcases inv.covered o ho with hq | settled | dormant
      · rcases List.mem_cons.mp hq with e | hq
        · exact absurd e hid
        · exact .inl ((raised.queue o.id).mpr (.inl hq))
      · exact .inr (.inl (settled.kept same kept))
      · exact .inr (.inr (dormant.kept same kept))

theorem evaluate_invariant {a : Analysis σ} (laws : a.JoinLaws) {ops : List Operation}
    {states : States σ} {id : OperationId} {rest : List OperationId} {p' : Progress σ}
    (inv : Invariant a ops ⟨states, id :: rest⟩)
    (h : evaluate a (.ofOperations ops) ⟨states, rest⟩ id = .ok p') : Invariant a ops p' := by
  obtain ⟨o₀, outs, -, -, -, raised⟩ := evaluate_raised h
  have grown := raised.grown laws
  have before : ∀ x, (x ∈ id :: rest ∨ ∃ i : Nat, (states.find? (.result x i)).isSome = true) →
      ∃ o, o ∈ ops ∧ o.id = x ∧ Awake a p'.states o := by
    intro x hx
    obtain ⟨o, ho, hid, haw⟩ := inv.awake x hx
    exact ⟨o, ho, hid, haw.grown grown⟩
  refine ⟨raised.nodup inv.nodup.of_cons, ?_, evaluate_covered laws inv h, ?_⟩
  · intro o ho v hv hr
    rw [grown.outside v hr]
    exact inv.seeded o ho v hv hr
  · intro x hx
    rcases hx with hx | ⟨i, hi⟩
    · rcases (raised.queue x).mp hx with hx | ⟨v, hv, o, ho, hid, hread⟩
      · exact before x (.inl (by simp [hx]))
      · exact ⟨o, ho, hid, .inr (.inr ⟨v, hread, raised.known_of_changed laws hv⟩)⟩
    · by_cases e : x = id
      · exact before x (.inl (by simp [e]))
      · rw [raised.kept _ (outputStates_eq_none_of_ne outs i e)] at hi
        exact before x (.inr ⟨i, hi⟩)

theorem run_cons (a : Analysis σ) (g : FlowGraph) (fuel : Nat) (states : States σ)
    (id : OperationId) (rest : List OperationId) :
    run a g (fuel + 1) ⟨states, id :: rest⟩ =
      (evaluate a g ⟨states, rest⟩ id >>= run a g fuel) := rfl

/-- What every evaluation keeps is kept by a run. -/
theorem run_keeps {a : Analysis σ} {g : FlowGraph} (Inv : Progress σ → Prop)
    (step : ∀ states id rest p', Inv ⟨states, id :: rest⟩ →
      evaluate a g ⟨states, rest⟩ id = .ok p' → Inv p')
    (fuel : Nat) {p p' : Progress σ} (inv : Inv p) (h : run a g fuel p = .ok p') : Inv p' := by
  induction fuel generalizing p with
  | zero =>
      cases h
      exact inv
  | succ fuel ih =>
      obtain ⟨states, queue⟩ := p
      cases queue with
      | nil =>
          cases h
          exact inv
      | cons id rest =>
          rw [run_cons] at h
          obtain ⟨mid, hmid, h⟩ := Outcome.bind_eq_ok.mp h
          exact ih (step states id rest mid inv hmid) h

theorem run_invariant {a : Analysis σ} (laws : a.JoinLaws) {ops : List Operation} (fuel : Nat)
    {p p' : Progress σ} (inv : Invariant a ops p)
    (h : run a (.ofOperations ops) fuel p = .ok p') : Invariant a ops p' :=
  run_keeps (Invariant a ops) (fun _ _ _ _ => evaluate_invariant laws) fuel inv h

end Worklist

end TagFlow
