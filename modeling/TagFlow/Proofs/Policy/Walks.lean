import TagFlow.Proofs.Policy.Privacy

/-! # Sensitivities along walks

A walk follows the dataflow from a source to a value. Each grouping on it doubles, up to the
largest word. A sensitivity is what some walk to the value amounts to, and no walk to the
value amounts to more.
-/

namespace TagFlow

namespace Privacy

/-- The operations on a walk to a value, in order. A walk starts at a value from outside or
at an operation without inputs, and goes on through any reader of an output. -/
inductive Walk (ops : List Operation) : List Operation → Value → Prop where
  | outside {v : Value} (external : v.isResult = false) : Walk ops [] v
  | source {o : Operation} {i : Nat} (member : o ∈ ops) (closed : o.inputs = [])
      (output : i < o.outputCount) : Walk ops [o] (.result o.id i)
  | next {path : List Operation} {v : Value} {o : Operation} {i : Nat} (walk : Walk ops path v)
      (member : o ∈ ops) (reads : v ∈ o.inputs) (output : i < o.outputCount) :
      Walk ops (path ++ [o]) (.result o.id i)

def Groups (o : Operation) : Prop := o.operator = groupBy ∧ o.inputs ≠ []

instance (o : Operation) : Decidable (Groups o) :=
  decidable_of_iff (o.operator = groupBy ∧ o.inputs.isEmpty = false) (by simp [Groups])

/-- How often rows are grouped on a walk. -/
def groupings (path : List Operation) : Nat := path.countP fun o => Groups o

/-- What a walk amounts to as a sensitivity: a doubling for each grouping. -/
def doublings (path : List Operation) : Nat := min (2 ^ groupings path) (UInt64.size - 1)

theorem groupings_concat (path : List Operation) (o : Operation) :
    groupings (path ++ [o]) = groupings path + if Groups o then 1 else 0 := by
  by_cases h : Groups o <;> simp [groupings, h]

theorem doublings_concat_of_groups {o : Operation} (h : Groups o) (path : List Operation) :
    doublings (path ++ [o]) = min (doublings path * 2) (UInt64.size - 1) := by
  unfold doublings
  rw [groupings_concat, if_pos h, Nat.pow_succ]
  omega

theorem doublings_concat_of_not_groups {o : Operation} (h : ¬ Groups o) (path : List Operation) :
    doublings (path ++ [o]) = doublings path := by
  rw [doublings, groupings_concat, if_neg h, Nat.add_zero]
  rfl

theorem doublings_nil : doublings [] = 1 := by decide

/-! ## One operation -/

theorem join_eq_some {s t : Option UInt64} {a : UInt64} (h : join s t = some a) :
    s = some a ∨ t = some a := by
  cases s with
  | none => exact .inr h
  | some b =>
      cases t with
      | none => exact .inl h
      | some c =>
          have hmax : max b c = if b ≤ c then c else b := rfl
          rw [join, hmax] at h
          split at h
          · exact .inr h
          · exact .inl h

theorem mem_of_foldl_join {l : List (Option UInt64)} {a : UInt64}
    (h : l.foldl join none = some a) : some a ∈ l := by
  suffices go : ∀ start, l.foldl join start = some a → start = some a ∨ some a ∈ l by
    rcases go none h with e | hmem
    · cases e
    · exact hmem
  intro start hfold
  clear h
  induction l generalizing start with
  | nil => exact .inl hfold
  | cons s l ih =>
      rcases ih (join start s) hfold with e | hmem
      · rcases join_eq_some e with e | e
        · exact .inl e
        · exact .inr (by simp [e])
      · exact .inr (by simp [hmem])

def AtLeast (s : Option UInt64) (n : Nat) : Prop := ∃ a, s = some a ∧ n ≤ a.toNat

theorem AtLeast.join_left {s : Option UInt64} {n : Nat} (h : AtLeast s n) (t : Option UInt64) :
    AtLeast (join s t) n := by
  obtain ⟨a, rfl, hle⟩ := h
  cases t with
  | none => exact ⟨a, rfl, hle⟩
  | some b =>
      refine ⟨max a b, rfl, ?_⟩
      rw [toNat_max]
      omega

theorem AtLeast.join_right {t : Option UInt64} {n : Nat} (h : AtLeast t n) (s : Option UInt64) :
    AtLeast (join s t) n := by
  have hcomm : join s t = join t s := analysis_joinLaws.join_comm s t
  rw [hcomm]
  exact h.join_left s

theorem AtLeast.foldl_join {l : List (Option UInt64)} {s : Option UInt64} {n : Nat}
    (hs : s ∈ l) (h : AtLeast s n) : AtLeast (l.foldl join none) n := by
  suffices go : ∀ start, s ∈ l ∨ AtLeast start n → AtLeast (l.foldl join start) n from
    go none (.inl hs)
  clear hs
  induction l with
  | nil =>
      intro start hstart
      rcases hstart with hs | hstart
      · cases hs
      · exact hstart
  | cons t l ih =>
      intro start hstart
      apply ih
      rcases hstart with hs | hstart
      · rcases List.mem_cons.mp hs with e | hs
        · exact .inr (e ▸ h.join_right start)
        · exact .inl hs
      · exact .inr (hstart.join_left t)

theorem sensitivity_of_inputs {o : Operation} {inputs : List (Option UInt64)}
    (arity : inputs.length = o.inputs.length) (opened : o.inputs ≠ []) :
    sensitivity o inputs =
      (inputs.foldl join none).map fun a => if Groups o then mulAmounts a 2 else a := by
  have hempty : inputs.isEmpty = false := by
    cases inputs with
    | nil => exact absurd (List.length_eq_zero_iff.mp arity.symm) opened
    | cons _ _ => rfl
  simp only [sensitivity, hempty, Bool.false_eq_true, if_false, Groups, opened, ne_eq,
    not_false_eq_true, and_true]
  split
  · rfl
  · rw [Option.map_id']

/-- A sensitivity comes from an input, and a walk to the input goes on through the
operation. -/
theorem sensitivity_traced {ops : List Operation} {o : Operation} (ho : o ∈ ops)
    {state : Value → Option UInt64}
    (traced : ∀ v, v ∈ o.inputs → ∀ a, state v = some a →
      ∃ path, Walk ops path v ∧ a.toNat = doublings path)
    {a : UInt64} (h : sensitivity o (o.inputs.map state) = some a) {i : Nat}
    (hi : i < o.outputCount) : ∃ path, Walk ops path (.result o.id i) ∧ a.toNat = doublings path := by
  by_cases closed : o.inputs = []
  · have hgroups : ¬ Groups o := fun hg => hg.2 closed
    simp only [sensitivity, closed, List.map_nil, List.isEmpty_nil, if_true,
      Option.some.injEq] at h
    refine ⟨[o], .source ho closed hi, ?_⟩
    rw [← List.nil_append [o], doublings_concat_of_not_groups hgroups, doublings_nil, ← h]
    rfl
  · rw [sensitivity_of_inputs (by simp) closed] at h
    obtain ⟨b, hb, hab⟩ := Option.map_eq_some_iff.mp h
    obtain ⟨v, hv, hstate⟩ := List.mem_map.mp (mem_of_foldl_join hb)
    obtain ⟨path, walk, hpath⟩ := traced v hv b hstate
    refine ⟨path ++ [o], .next walk ho hv hi, ?_⟩
    by_cases hgroups : Groups o
    · rw [if_pos hgroups] at hab
      rw [← hab, toNat_mulAmounts, doublings_concat_of_groups hgroups, hpath]
      rfl
    · rw [if_neg hgroups] at hab
      rw [← hab, doublings_concat_of_not_groups hgroups, hpath]

/-- What an input amounts to at least is passed on, doubled by a grouping. -/
theorem sensitivity_atLeast {o : Operation} {state : Value → Option UInt64} {v : Value}
    (hv : v ∈ o.inputs) {path : List Operation} (h : AtLeast (state v) (doublings path)) :
    AtLeast (sensitivity o (o.inputs.map state)) (doublings (path ++ [o])) := by
  rw [sensitivity_of_inputs (by simp) (List.ne_nil_of_mem hv)]
  obtain ⟨a, ha, hle⟩ := AtLeast.foldl_join (List.mem_map_of_mem hv) h
  rw [ha]
  refine ⟨_, rfl, ?_⟩
  show doublings (path ++ [o]) ≤ (if Groups o then mulAmounts a 2 else a).toNat
  by_cases hgroups : Groups o
  · rw [if_pos hgroups, toNat_mulAmounts, doublings_concat_of_groups hgroups]
    have htwo : (2 : UInt64).toNat = 2 := rfl
    rw [htwo]
    omega
  · rw [if_neg hgroups, doublings_concat_of_not_groups hgroups]
    exact hle

/-! ## Returned sensitivities -/

/-- Every sensitivity is what a walk amounts to. -/
theorem solve_traced {ops : List Operation} {states : States (Option UInt64)}
    (h : Worklist.solve analysis (.ofOperations ops) = .ok states) {v : Value} {a : UInt64}
    (ha : Worklist.stateOf analysis states v = some a) :
    ∃ path, Walk ops path v ∧ a.toNat = doublings path := by
  have kept := Worklist.solve_entries (a := analysis)
    (fun v s => ∀ a, s = some a → ∃ path, Walk ops path v ∧ a.toNat = doublings path) ?_ ?_ h
  · exact kept v _ (Worklist.find?_of_stateOf ha (Option.some_ne_none a)) a rfl
  · intro v external a ha
    cases ha
    exact ⟨[], .outside external, doublings_nil.symm⟩
  · intro states o outs i s traced hlook houts hs hi a ha
    have ho := (FlowGraph.mem_of_lookup hlook).1
    have inputs : ∀ v a, Worklist.stateOf analysis states v = some a →
        ∃ path, Walk ops path v ∧ a.toNat = doublings path :=
      fun v a hva => traced v _ (Worklist.find?_of_stateOf hva (Option.some_ne_none a)) a rfl
    rcases join_eq_some ha with e | e
    · exact inputs _ a e
    · have hsame : s = sensitivity o (o.inputs.map (Worklist.stateOf analysis states)) := by
        cases houts
        exact List.eq_of_mem_replicate (List.mem_of_getElem? hs)
      exact sensitivity_traced ho (fun v _ a => inputs v a) (hsame ▸ e) hi

/-- No walk amounts to more than the sensitivity at its end. -/
theorem walk_atLeast {ops : List Operation} {states : States (Option UInt64)}
    (post : Worklist.PostFixpoint analysis ops states) {path : List Operation} {v : Value}
    (walk : Walk ops path v) (read : v.isResult = false → ∃ o, o ∈ ops ∧ v ∈ o.inputs) :
    AtLeast (Worklist.stateOf analysis states v) (doublings path) := by
  have raised : ∀ o, o ∈ ops → ∀ (i n : Nat), i < o.outputCount →
      AtLeast (sensitivity o (o.inputs.map (Worklist.stateOf analysis states))) n →
      AtLeast (Worklist.stateOf analysis states (.result o.id i)) n := by
    intro o ho i n hi h
    obtain ⟨outs, houts, -, hjoin⟩ := post.outputs o ho
    cases houts
    rw [← hjoin i _ (by rw [List.getElem?_replicate, if_pos hi])]
    exact h.join_right _
  induction walk with
  | outside external =>
      obtain ⟨o, ho, hv⟩ := read external
      rw [Worklist.stateOf_of_find? (post.outside o ho _ hv external), doublings_nil]
      exact ⟨1, rfl, Nat.le_refl 1⟩
  | source member closed output =>
      refine raised _ member _ _ output ?_
      have hgroups : ¬ Groups _ := fun hg => hg.2 closed
      rw [closed, ← List.nil_append [_], doublings_concat_of_not_groups hgroups, doublings_nil]
      exact ⟨1, rfl, Nat.le_refl 1⟩
  | next walk member reads output ih =>
      refine raised _ member _ _ output (sensitivity_atLeast reads ?_)
      exact ih fun _ => ⟨_, member, reads⟩

end Privacy

end TagFlow
