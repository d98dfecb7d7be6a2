import TagFlow.Proofs.Policy.Roles
import TagFlow.Proofs.Policy.Walks

/-! # What a program spends

The amounts that mechanisms spend are words and stop at the largest one. As long as a budget
is below that, the verdict is that of exact arithmetic: a program fits into its budget when
it does so along every choice of walks to its mechanisms.
-/

namespace TagFlow

namespace Privacy

def amount (o : Operation) (name : String) : Nat :=
  match (o.find? name).bind Attribute.integer? with
  | some number => number.toInt.toNat
  | none => 0

/-- The privacy mechanisms of a module, with those of implementations. -/
def mechanisms (m : Module) : List Operation :=
  m.occurrences.filter (·.operator = mechanism)

/-- A walk to the first input of an operation. Where there is none, the empty one stands
for it. -/
def Leads (ops : List Operation) (path : List Operation) (o : Operation) : Prop :=
  ∃ v, o.inputs.head? = some v ∧
    (Walk ops path v ∨ (path = [] ∧ ∀ other, ¬ Walk ops other v))

/-! ## Amounts -/

theorem toNat_parameter {o : Operation} {name : String} {given : Option UInt64}
    (h : parameter o name = .ok given) : (given.getD 0).toNat = amount o name := by
  unfold parameter at h
  unfold amount
  cases hfind : o.find? name with
  | none =>
      rw [hfind] at h
      cases h
      rfl
  | some written =>
      rw [hfind] at h
      cases hinteger : written.integer? with
      | none => simp [hinteger] at h
      | some number =>
          simp only [hinteger] at h
          split at h
          · cases h
          · cases h
            have hlt : number.toInt < 2 ^ 63 := number.toInt_lt
            have hsize : number.toInt.toNat < UInt64.size := by
              have : UInt64.size = 18446744073709551616 := rfl
              omega
            simp only [Option.getD_some, Option.bind_some, hinteger]
            exact UInt64.toNat_ofNat_of_lt' hsize

/-- How often a mechanism is charged. -/
def factor (states : States (Option UInt64)) (o : Operation) : Nat :=
  ((o.inputs.head?.bind (Worklist.stateOf analysis states)).getD 1).toNat

theorem min_add_min (a b top : Nat) : min (a + min b top) top = min (a + b) top := by
  omega

theorem charge_eq_ok {states : States (Option UInt64)} {before after : Budget} {o : Operation}
    (h : charge states before o = .ok after) :
    o.inputs ≠ [] ∧
      after.epsilon.toNat = min (before.epsilon.toNat + amount o epsilon * factor states o)
        (UInt64.size - 1) ∧
      after.delta.toNat = min (before.delta.toNat + amount o delta * factor states o)
        (UInt64.size - 1) := by
  unfold charge at h
  obtain ⟨given, hgiven, h⟩ := Outcome.bind_eq_ok.mp h
  cases given with
  | none => cases h
  | some eps =>
      obtain ⟨same, hsame, h⟩ := Outcome.bind_eq_ok.mp h
      cases hsame
      obtain ⟨del, hdel, h⟩ := Outcome.bind_eq_ok.mp h
      have hepsilon : eps.toNat = amount o epsilon := toNat_parameter hgiven
      have hdelta := toNat_parameter hdel
      cases hinputs : o.inputs with
      | nil =>
          rw [hinputs] at h
          cases h
      | cons v rest =>
          rw [hinputs] at h
          cases h
          have hfactor : ((Worklist.stateOf analysis states v).getD 1).toNat = factor states o := by
            simp only [factor, hinputs, List.head?_cons, Option.bind_some]
          refine ⟨List.cons_ne_nil v rest, ?_, ?_⟩
          · rw [toNat_addAmounts, toNat_mulAmounts, hepsilon, ← hfactor]
            exact min_add_min _ _ _
          · rw [toNat_addAmounts, toNat_mulAmounts, hdelta, ← hfactor]
            exact min_add_min _ _ _

/-- What is spent in total is the exact sum, or the largest word if that is smaller. -/
theorem foldlM_charge {states : States (Option UInt64)} {ms : List Operation} {total : Budget}
    (h : ms.foldlM (charge states) {} = .ok total) :
    (∀ o, o ∈ ms → o.inputs ≠ []) ∧
      total.epsilon.toNat = min (ms.map fun o => amount o epsilon * factor states o).sum
        (UInt64.size - 1) ∧
      total.delta.toNat = min (ms.map fun o => amount o delta * factor states o).sum
        (UInt64.size - 1) := by
  apply Outcome.foldlM_keeps (fun done (b : Budget) => (∀ o, o ∈ done → o.inputs ≠ []) ∧
    b.epsilon.toNat = min (done.map fun o => amount o epsilon * factor states o).sum
      (UInt64.size - 1) ∧
    b.delta.toNat = min (done.map fun o => amount o delta * factor states o).sum
      (UInt64.size - 1)) _ _ h
  · exact ⟨by simp, rfl, rfl⟩
  · intro done o before after _ ⟨hread, hepsilon, hdelta⟩ hcharge
    obtain ⟨hinputs, hepsilon', hdelta'⟩ := charge_eq_ok hcharge
    refine ⟨?_, ?_, ?_⟩
    · intro o' ho'
      rcases List.mem_append.mp ho' with ho' | ho'
      · exact hread o' ho'
      · rw [List.mem_singleton.mp ho']
        exact hinputs
    · rw [List.map_append, List.sum_append, List.map_singleton, List.sum_singleton]
      omega
    · rw [List.map_append, List.sum_append, List.map_singleton, List.sum_singleton]
      omega

/-! ## Factors and walks -/

theorem Leads.le_factor {ops : List Operation} {states : States (Option UInt64)}
    {path : List Operation} {o : Operation} (leads : Leads ops path o)
    (h : Worklist.solve analysis (.ofOperations ops) = .ok states)
    (post : Worklist.PostFixpoint analysis ops states) (ho : o ∈ ops) :
    doublings path ≤ factor states o := by
  obtain ⟨v, hv, hwalk⟩ := leads
  have read : v.isResult = false → ∃ o, o ∈ ops ∧ v ∈ o.inputs :=
    fun _ => ⟨o, ho, List.mem_of_mem_head? hv⟩
  simp only [factor, hv, Option.bind_some]
  rcases hwalk with walk | ⟨rfl, none⟩
  · obtain ⟨a, ha, hle⟩ := walk_atLeast post walk read
    rw [ha]
    exact hle
  · cases hs : Worklist.stateOf analysis states v with
    | none => exact Nat.le_of_eq doublings_nil
    | some a =>
        obtain ⟨path, walk, -⟩ := solve_traced h hs
        exact absurd walk (none path)

theorem exists_leads {ops : List Operation} {states : States (Option UInt64)}
    (h : Worklist.solve analysis (.ofOperations ops) = .ok states)
    (post : Worklist.PostFixpoint analysis ops states) {o : Operation} (ho : o ∈ ops)
    (hinputs : o.inputs ≠ []) : ∃ path, Leads ops path o ∧ factor states o = doublings path := by
  obtain ⟨v, hv⟩ : ∃ v, o.inputs.head? = some v := by
    cases hi : o.inputs with
    | nil => exact absurd hi hinputs
    | cons v rest => exact ⟨v, rfl⟩
  simp only [factor, hv, Option.bind_some]
  cases hs : Worklist.stateOf analysis states v with
  | some a =>
      obtain ⟨path, walk, hpath⟩ := solve_traced h hs
      exact ⟨path, ⟨v, hv, .inl walk⟩, hpath⟩
  | none =>
      refine ⟨[], ⟨v, hv, .inr ⟨rfl, ?_⟩⟩, doublings_nil.symm⟩
      intro other walk
      obtain ⟨a, ha, -⟩ := walk_atLeast post walk fun _ => ⟨o, ho, List.mem_of_mem_head? hv⟩
      rw [hs] at ha
      cases ha

/-! ## Sums below the largest word -/

theorem mul_pow_le {price times budget : Nat} {path : List Operation}
    (low : budget < UInt64.size - 1) (charged : price * times ≤ budget)
    (h : doublings path ≤ times) : price * 2 ^ groupings path ≤ price * times := by
  rcases Nat.eq_zero_or_pos price with rfl | hpos
  · simp
  · have htimes : times ≤ price * times := Nat.le_mul_of_pos_left times hpos
    have hexact : 2 ^ groupings path ≤ times := by
      unfold doublings at h
      omega
    exact Nat.mul_le_mul_left price hexact

theorem sum_walks_le {ms : List Operation} {price times : Operation → Nat}
    {walk : Operation → List Operation} {budget : Nat} (low : budget < UInt64.size - 1)
    (h : ∀ o, o ∈ ms → doublings (walk o) ≤ times o)
    (charged : (ms.map fun o => price o * times o).sum ≤ budget) :
    (ms.map fun o => price o * 2 ^ groupings (walk o)).sum ≤ budget := by
  refine Nat.le_trans (List.sum_le_sum ?_) charged
  intro o ho
  have hterm : price o * times o ≤ (ms.map fun o => price o * times o).sum :=
    List.single_le_sum (fun _ _ => Nat.zero_le _) _ (List.mem_map_of_mem ho)
  exact mul_pow_le low (Nat.le_trans hterm charged) (h o ho)

theorem sum_factors_le {ms : List Operation} {times : Operation → Nat}
    {walk : Operation → List Operation} (price : Operation → Nat)
    (h : ∀ o, o ∈ ms → times o = doublings (walk o)) :
    (ms.map fun o => price o * times o).sum ≤
      (ms.map fun o => price o * 2 ^ groupings (walk o)).sum := by
  apply List.sum_le_sum
  intro o ho
  rw [h o ho]
  exact Nat.mul_le_mul_left _ (Nat.min_le_left _ _)

/-- The verdict is that of exact arithmetic on every choice of walks. -/
theorem check_eq_true_iff_walks {m : Module} (distinct : (m.occurrences.map (·.id)).Nodup)
    {total : Budget} (returned : spent m = .ok total) (limit : Budget)
    (epsilonLow : limit.epsilon.toNat < UInt64.size - 1)
    (deltaLow : limit.delta.toNat < UInt64.size - 1) :
    ∃ verdict, check m (.privacy limit) = .ok verdict ∧
      (verdict = true ↔ ∀ walk : Operation → List Operation,
        (∀ o, o ∈ mechanisms m → Leads m.occurrences (walk o) o) →
          ((mechanisms m).map fun o => amount o epsilon * 2 ^ groupings (walk o)).sum ≤
              limit.epsilon.toNat ∧
            ((mechanisms m).map fun o => amount o delta * 2 ^ groupings (walk o)).sum ≤
              limit.delta.toNat) := by
  obtain ⟨states, hstates, hcharge⟩ := Outcome.bind_eq_ok.mp returned
  have hms : (FlowGraph.ofModule m).operations.filter (·.operator = mechanism) = mechanisms m := by
    rw [FlowGraph.ofModule, FlowGraph.operations_eq_of_distinct distinct]
    rfl
  rw [hms] at hcharge
  obtain ⟨hread, hepsilon, hdelta⟩ := foldlM_charge hcharge
  have inv := Worklist.solve_invariant analysis_joinLaws analysis_ranked hstates
  have post := inv.postFixpoint analysis_joinLaws analysis_strict distinct (analysis_totalOn _)
  have inside : ∀ o, o ∈ mechanisms m → o ∈ m.occurrences := fun o ho => (List.mem_filter.mp ho).1
  refine ⟨total.fits limit, by rw [check, returned]; rfl, ?_⟩
  rw [Budget.fits, Bool.and_eq_true, decide_eq_true_eq, decide_eq_true_eq,
    UInt64.le_iff_toNat_le, UInt64.le_iff_toNat_le]
  constructor
  · intro ⟨fitsEpsilon, fitsDelta⟩ walk leads
    have below : ∀ o, o ∈ mechanisms m → doublings (walk o) ≤ factor states o :=
      fun o ho => (leads o ho).le_factor hstates post (inside o ho)
    exact ⟨sum_walks_le epsilonLow below (by omega), sum_walks_le deltaLow below (by omega)⟩
  · intro all
    have chosen : ∀ o, ∃ path, o ∈ mechanisms m →
        Leads m.occurrences path o ∧ factor states o = doublings path := by
      intro o
      by_cases ho : o ∈ mechanisms m
      · obtain ⟨path, hpath⟩ := exists_leads hstates post (inside o ho) (hread o ho)
        exact ⟨path, fun _ => hpath⟩
      · exact ⟨[], fun h => absurd h ho⟩
    choose walk hwalk using chosen
    obtain ⟨fitsEpsilon, fitsDelta⟩ := all walk fun o ho => (hwalk o ho).1
    have tight : ∀ o, o ∈ mechanisms m → factor states o = doublings (walk o) :=
      fun o ho => (hwalk o ho).2
    have hε := sum_factors_le (amount · epsilon) tight
    have hδ := sum_factors_le (amount · delta) tight
    omega

/-! ## A program with two mechanisms -/

namespace Report

def mechanismOn (id : OperationId) (eps : Int64) (v : Value) : Operation :=
  .standalone id mechanism [(epsilon, .integer eps), (delta, .integer 1)] [v]

/-- The first mechanism reads a grouped table, the second one a value that nothing
produces. -/
def root : Module :=
  ⟨0, [⟨0, none, .empty, .empty, .empty,
    [.standalone 0 "core.table" [] [],
      .standalone 1 groupBy [] [.result 0 0],
      mechanismOn 2 3 (.result 1 0),
      mechanismOn 3 1 (.result 9 0)]⟩]⟩

theorem check_eq_true_iff_walks_root :
    (root.occurrences.map (·.id)).Nodup ∧ spent root = .ok ⟨7, 3⟩ ∧
      check root (.privacy ⟨7, 3⟩) = .ok true ∧
        ∀ walk : Operation → List Operation,
          (∀ o, o ∈ mechanisms root → Leads root.occurrences (walk o) o) →
            ((mechanisms root).map fun o => amount o epsilon * 2 ^ groupings (walk o)).sum ≤ 7 ∧
              ((mechanisms root).map fun o => amount o delta * 2 ^ groupings (walk o)).sum ≤ 3 := by
  have distinct : (root.occurrences.map (·.id)).Nodup := by decide
  have returned : spent root = .ok ⟨7, 3⟩ := rfl
  have accepted : check root (.privacy ⟨7, 3⟩) = .ok true := rfl
  obtain ⟨verdict, hverdict, hwalks⟩ :=
    check_eq_true_iff_walks distinct returned ⟨7, 3⟩ (by decide) (by decide)
  rw [accepted, Except.ok.injEq] at hverdict
  exact ⟨distinct, returned, accepted, hwalks.mp hverdict.symm⟩

end Report

end Privacy

end TagFlow
