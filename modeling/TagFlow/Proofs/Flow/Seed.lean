import TagFlow.Proofs.Flow.Worklist

/-! # The start of a run

Seeding never fails. It gives the initial state to every value from outside that an
operation reads, queues the readers of these values and the operations without inputs,
and leaves all others dormant.
-/

namespace TagFlow

namespace Worklist

variable {σ : Type}

/-- Only values from outside that are read have entries, their readers are queued, and so are
only operations that have a reason to be. -/
structure Seeding (a : Analysis σ) (ops : List Operation) (p : Progress σ) : Prop where
  nodup : p.queue.Nodup
  entries : ∀ v s, p.states.find? v = some s →
    v.isResult = false ∧ s = a.initial ∧ ∀ x, Reads ops x v → x ∈ p.queue
  queued : ∀ x, x ∈ p.queue →
    ∃ o, o ∈ ops ∧ o.id = x ∧ (o.inputs = [] ∨ ∃ v, v ∈ o.inputs ∧ v.isResult = false)
  read : ∀ v, (p.states.find? v).isSome = true → ∃ o, o ∈ ops ∧ v ∈ o.inputs

structure Extends (p p' : Progress σ) : Prop where
  entry : ∀ v, (p.states.find? v).isSome = true → (p'.states.find? v).isSome = true
  queue : ∀ x, x ∈ p.queue → x ∈ p'.queue

theorem Extends.refl (p : Progress σ) : Extends p p := ⟨fun _ h => h, fun _ h => h⟩

theorem Extends.trans {p₁ p₂ p₃ : Progress σ} (h : Extends p₁ p₂) (k : Extends p₂ p₃) :
    Extends p₁ p₃ :=
  ⟨fun v hv => k.entry v (h.entry v hv), fun x hx => k.queue x (h.queue x hx)⟩

theorem seedInput_ok (a : Analysis σ) {ops : List Operation} {o : Operation} (ho : o ∈ ops)
    {v : Value} (hv : v ∈ o.inputs) {p : Progress σ} (seeding : Seeding a ops p) :
    ∃ p', seedInput a (.ofOperations ops) p v = .ok p' ∧ Seeding a ops p' ∧ Extends p p' ∧
      (v.isResult = false → (p'.states.find? v).isSome = true) := by
  by_cases hskip : (v.isResult || p.states.contains v) = true
  · refine ⟨p, by simp [seedInput, hskip], seeding, .refl p, ?_⟩
    intro hr
    rw [hr, Bool.false_or] at hskip
    exact hskip
  · obtain ⟨queue, hwake, hmem, hnodup⟩ := wake_ok ho (.inl hv)
      { p with states := p.states.insert v a.initial }
    have hr : v.isResult = false := by
      cases hr : v.isResult with
      | false => rfl
      | true => simp [hr] at hskip
    refine ⟨_, by simp only [seedInput, hskip]; exact hwake,
      ⟨hnodup seeding.nodup, ?_, ?_, ?_⟩, ⟨?_, fun x hx => (hmem x).mpr (.inl hx)⟩, ?_⟩
    · intro w s hw
      rw [OrdMap.find?_insert] at hw
      split at hw
      · rename_i e
        cases hw
        subst e
        exact ⟨hr, rfl, fun x hx => (hmem x).mpr (.inr hx)⟩
      · obtain ⟨hwr, hs, hq⟩ := seeding.entries w s hw
        exact ⟨hwr, hs, fun x hx => (hmem x).mpr (.inl (hq x hx))⟩
    · intro x hx
      rcases (hmem x).mp hx with hx | ⟨o', ho', hid, hread⟩
      · exact seeding.queued x hx
      · exact ⟨o', ho', hid, .inr ⟨v, hread, hr⟩⟩
    · intro w hw
      rw [OrdMap.find?_insert] at hw
      split at hw
      · rename_i e
        exact ⟨o, ho, e ▸ hv⟩
      · exact seeding.read w hw
    · intro w hw
      rw [OrdMap.find?_insert]
      split
      · rfl
      · exact hw
    · intro _
      rw [OrdMap.find?_insert_self]
      rfl

/-- What seeding owes to one operation. -/
def Seeded (p : Progress σ) (o : Operation) : Prop :=
  (o.inputs = [] → o.id ∈ p.queue) ∧
    ∀ v, v ∈ o.inputs → v.isResult = false → (p.states.find? v).isSome = true

theorem Seeded.extends {p p' : Progress σ} {o : Operation} (h : Seeded p o)
    (ext : Extends p p') : Seeded p' o :=
  ⟨fun he => ext.queue _ (h.1 he), fun v hv hr => ext.entry v (h.2 v hv hr)⟩

theorem seedOperation_ok (a : Analysis σ) {ops : List Operation} {o : Operation} (ho : o ∈ ops)
    {p : Progress σ} (seeding : Seeding a ops p) :
    ∃ p', seedOperation a (.ofOperations ops) p o = .ok p' ∧ Seeding a ops p' ∧ Extends p p' ∧
      Seeded p' o := by
  obtain ⟨start, hstart, hseeding, hext, hqueued⟩ : ∃ start,
      (if o.inputs.isEmpty then { p with queue := enqueue p.queue o.id } else p) = start ∧
        Seeding a ops start ∧ Extends p start ∧ (o.inputs = [] → o.id ∈ start.queue) := by
    by_cases he : o.inputs = []
    · refine ⟨{ p with queue := enqueue p.queue o.id }, by simp [he],
        ⟨nodup_enqueue seeding.nodup _, ?_, ?_, seeding.read⟩,
        ⟨fun _ h => h, fun x hx => mem_enqueue.mpr (.inl hx)⟩,
        fun _ => mem_enqueue.mpr (.inr rfl)⟩
      · intro v s hv
        obtain ⟨hr, hs, hq⟩ := seeding.entries v s hv
        exact ⟨hr, hs, fun x hx => mem_enqueue.mpr (.inl (hq x hx))⟩
      · intro x hx
        rcases mem_enqueue.mp hx with hx | rfl
        · exact seeding.queued x hx
        · exact ⟨o, ho, rfl, .inl he⟩
    · exact ⟨p, by simp [he], seeding, .refl p, fun h => absurd h he⟩
  obtain ⟨p', hp', hs, hx, hin⟩ := Outcome.foldlM_total (f := seedInput a (.ofOperations ops))
    (fun done p' => Seeding a ops p' ∧ Extends start p' ∧
      ∀ v, v ∈ done → v.isResult = false → (p'.states.find? v).isSome = true)
    (l := o.inputs) (s := start) ⟨hseeding, .refl start, by simp⟩ (by
      intro done v q hnext ⟨hq, hx, hdone⟩
      have hv := Outcome.mem_of_concat_isPrefix hnext
      obtain ⟨q', hq', hseed, hext', hvq⟩ := seedInput_ok a ho hv hq
      refine ⟨q', hq', hseed, hx.trans hext', ?_⟩
      intro w hw hr
      rcases List.mem_append.mp hw with hw | hw
      · exact hext'.entry w (hdone w hw hr)
      · rw [List.mem_singleton.mp hw] at hr ⊢
        exact hvq hr)
  refine ⟨p', by simp only [seedOperation, hstart]; exact hp', hs, hext.trans hx, ?_, hin⟩
  exact fun he => hx.queue _ (hqueued he)

theorem Seeding.result_absent {a : Analysis σ} {ops : List Operation} {p : Progress σ}
    (h : Seeding a ops p) {v : Value} (hv : v.isResult = true) : p.states.find? v = none := by
  cases hf : p.states.find? v with
  | none => rfl
  | some s =>
      rw [(h.entries v s hf).1] at hv
      exact Bool.noConfusion hv

theorem Seeding.covered {a : Analysis σ} {ops : List Operation} {p : Progress σ}
    (h : Seeding a ops p) {o : Operation} (ho : o ∈ ops) (seeded : Seeded p o) :
    o.id ∈ p.queue ∨ Dormant a p.states o := by
  by_cases he : o.inputs = []
  · exact .inl (seeded.1 he)
  · by_cases hex : ∃ v, v ∈ o.inputs ∧ v.isResult = false
    · obtain ⟨v, hv, hr⟩ := hex
      obtain ⟨s, hs⟩ := Option.isSome_iff_exists.mp (seeded.2 v hv hr)
      exact .inl ((h.entries v s hs).2.2 o.id ⟨o, ho, rfl, hv⟩)
    · refine .inr ⟨he, ?_, fun i => h.result_absent rfl⟩
      intro v hv
      have hr : v.isResult = true := by
        by_contra hr
        exact hex ⟨v, hv, by simpa using hr⟩
      exact ⟨hr, by rw [stateOf, h.result_absent hr]; rfl⟩

theorem seed_invariant (a : Analysis σ) (ops : List Operation) :
    ∃ p, seed a (.ofOperations ops) = .ok p ∧ Seeding a ops p ∧ Invariant a ops p := by
  have inside : ∀ o, o ∈ (FlowGraph.ofOperations ops).operations → o ∈ ops :=
    fun o ho => (FlowGraph.mem_of_lookup (FlowGraph.mem_operations.mp ho)).1
  obtain ⟨p, hp, seeding, hseeded⟩ := Outcome.foldlM_total
    (f := seedOperation a (.ofOperations ops))
    (fun done p => Seeding a ops p ∧ ∀ o, o ∈ done → Seeded p o)
    (l := (FlowGraph.ofOperations ops).operations) (s := {})
    ⟨⟨List.nodup_nil, by simp, by simp, by simp⟩, by simp⟩ (by
      intro done o q hnext ⟨hq, hdone⟩
      have ho := inside o (Outcome.mem_of_concat_isPrefix hnext)
      obtain ⟨q', hq', hseed, hext, hoq⟩ := seedOperation_ok a ho hq
      refine ⟨q', hq', hseed, ?_⟩
      intro o' ho'
      rcases List.mem_append.mp ho' with ho' | ho'
      · exact (hdone o' ho').extends hext
      · rw [List.mem_singleton.mp ho']
        exact hoq)
  refine ⟨p, hp, seeding, seeding.nodup, ?_, ?_, ?_⟩
  · intro o ho v hv hr
    obtain ⟨s, hs⟩ := Option.isSome_iff_exists.mp ((hseeded o ho).2 v hv hr)
    rw [hs, (seeding.entries v s hs).2.1]
  · intro o ho
    rcases seeding.covered (inside o ho) (hseeded o ho) with hq | dormant
    · exact .inl hq
    · exact .inr (.inr dormant)
  · intro x hx
    rcases hx with hx | ⟨i, hi⟩
    · obtain ⟨o, ho, hid, hreason⟩ := seeding.queued x hx
      refine ⟨o, ho, hid, ?_⟩
      rcases hreason with h | h
      · exact .inl h
      · exact .inr (.inl h)
    · rw [seeding.result_absent rfl] at hi
      exact Bool.noConfusion hi

/-- What seeding establishes and every evaluation keeps holds of the returned states. -/
theorem solve_keeps [DecidableEq σ] {a : Analysis σ} {ops : List Operation}
    (Inv : States σ → Prop) (start : ∀ p, Seeding a ops p → Inv p.states)
    (step : ∀ states id rest p', Inv states →
      evaluate a (.ofOperations ops) ⟨states, rest⟩ id = .ok p' → Inv p'.states)
    {states : States σ} (h : solve a (.ofOperations ops) = .ok states) : Inv states := by
  obtain ⟨p, hp, h⟩ := Outcome.bind_eq_ok.mp h
  obtain ⟨done, hdone, h⟩ := Outcome.bind_eq_ok.mp h
  cases h
  obtain ⟨p', hp', seeding, -⟩ := seed_invariant a ops
  rw [hp] at hp'
  cases hp'
  exact run_keeps (fun p => Inv p.states) (fun states id rest p' => step states id rest p') _
    (start p seeding) hdone

/-- The entries come from seeding and from joining outputs to what was there. -/
theorem solve_entries [DecidableEq σ] {a : Analysis σ} {ops : List Operation}
    (P : Value → σ → Prop) (start : ∀ v, v.isResult = false → P v a.initial)
    (step : ∀ states o outs (i : Nat) s, (∀ v t, states.find? v = some t → P v t) →
      (FlowGraph.ofOperations ops).lookup.find? o.id = some o →
      a.transfer o (o.inputs.map (stateOf a states)) = .ok outs → outs[i]? = some s →
      i < o.outputCount → P (.result o.id i) (a.join (stateOf a states (.result o.id i)) s))
    {states : States σ} (h : solve a (.ofOperations ops) = .ok states) :
    ∀ v t, states.find? v = some t → P v t := by
  refine solve_keeps (fun states => ∀ v t, states.find? v = some t → P v t) ?_ ?_ h
  · intro p seeding v t hf
    obtain ⟨houtside, rfl, -⟩ := seeding.entries v t hf
    exact start v houtside
  · intro states id rest p' kept hp' v t hf
    obtain ⟨o, outs, hlook, houts, hlen, raised⟩ := evaluate_raised hp'
    obtain ⟨-, rfl⟩ := FlowGraph.mem_of_lookup hlook
    cases hnew : outputStates o.id 0 outs v with
    | none =>
        rw [raised.kept v hnew] at hf
        exact kept v t hf
    | some s =>
        obtain ⟨i, hi, rfl⟩ := (mem_of_outputStates hnew).2
        rw [raised.raised _ s hnew] at hf
        cases hf
        rw [outputStates_result] at hnew
        exact step states o outs i s kept hlook houts hnew (hlen ▸ hi)

end Worklist

end TagFlow
