import TagFlow.Proofs.Policy.RescanPasses

/-! # Endless rescans

Written out visit by visit, the passes are a sequence in which every operation has its turn
again and again. Two facts hold of every such sequence. Marks grow, in each order of marks in
which what the operations give grows along the sequence; so integrity grows under all rules,
and a rule that has once acted acts from then on. And an operation's marks come to rest, in
each respect in which what it would write comes to rest.
-/

namespace TagFlow

namespace Rescan

/-! ## Coming to rest -/

/-- From some point on the property holds always, or never. -/
def Settles (P : Nat → Prop) : Prop :=
  ∃ c : Prop, ∃ start, ∀ i, start ≤ i → (P i ↔ c)

namespace Settles

variable {P Q : Nat → Prop}

theorem of_grows (h : ∀ i, P i → P (i + 1)) : Settles P := by
  by_cases ever : ∃ i, P i
  · obtain ⟨start, hstart⟩ := ever
    refine ⟨True, start, fun i hi => iff_true_intro ?_⟩
    exact Nat.le_induction hstart (fun k _ hk => h k hk) i hi
  · exact ⟨False, 0, fun i _ => iff_false_intro fun hi => ever ⟨i, hi⟩⟩

theorem of_never {start : Nat} (h : ∀ i, start ≤ i → ¬ P i) : Settles P :=
  ⟨False, start, fun i hi => iff_false_intro (h i hi)⟩

theorem of_iff (hq : Settles Q) (h : ∀ i, P i ↔ Q i) : Settles P := by
  obtain ⟨c, start, hc⟩ := hq
  exact ⟨c, start, fun i hi => (h i).trans (hc i hi)⟩

theorem not (hp : Settles P) : Settles fun i => ¬ P i := by
  obtain ⟨c, start, hc⟩ := hp
  exact ⟨¬ c, start, fun i hi => not_congr (hc i hi)⟩

theorem and (hp : Settles P) (hq : Settles Q) : Settles fun i => P i ∧ Q i := by
  obtain ⟨c, start, hc⟩ := hp
  obtain ⟨d, start', hd⟩ := hq
  refine ⟨c ∧ d, max start start', fun i hi => and_congr (hc i ?_) (hd i ?_)⟩ <;> omega

theorem or (hp : Settles P) (hq : Settles Q) : Settles fun i => P i ∨ Q i := by
  obtain ⟨c, start, hc⟩ := hp
  obtain ⟨d, start', hd⟩ := hq
  refine ⟨c ∨ d, max start start', fun i hi => or_congr (hc i ?_) (hd i ?_)⟩ <;> omega

variable {α : Type} {l : List α} {F : α → Nat → Prop}

theorem exists_mem (h : ∀ a, a ∈ l → Settles (F a)) : Settles fun i => ∃ a, a ∈ l ∧ F a i := by
  induction l with
  | nil => exact ⟨False, 0, fun i _ => by simp⟩
  | cons a l ih =>
      have rest := ih fun b hb => h b (List.mem_cons_of_mem a hb)
      refine ((h a List.mem_cons_self).or rest).of_iff fun i => ?_
      simp

/-- Finitely many properties come to rest at a common point. -/
theorem common (h : ∀ a, a ∈ l → Settles (F a)) :
    ∃ start, ∀ a, a ∈ l → ∀ i j, start ≤ i → start ≤ j → (F a i ↔ F a j) := by
  induction l with
  | nil => exact ⟨0, fun a ha => absurd ha List.not_mem_nil⟩
  | cons a l ih =>
      obtain ⟨start, hstart⟩ := ih fun b hb => h b (List.mem_cons_of_mem a hb)
      obtain ⟨c, start', hc⟩ := h a List.mem_cons_self
      refine ⟨max start start', ?_⟩
      intro b hb i j hi hj
      rcases List.mem_cons.mp hb with rfl | hb
      · exact (hc i (by omega)).trans (hc j (by omega)).symm
      · exact hstart b hb i j (by omega) (by omega)

end Settles

/-! ## Visit after visit -/

variable {book : RuleBook} {m : Module} {o : Operation}

/-- The marks before each visit and the operation that is visited. Every operation has its turn
again and again. -/
structure FairRun (book : RuleBook) (m : Module) (state : Nat → MarkMap)
    (turn : Nat → Operation) : Prop where
  start : state 0 = .empty
  next : ∀ i, state (i + 1) = write book (state i) (turn i)
  member : ∀ i, turn i ∈ m.operations
  again : ∀ o, o ∈ m.operations → ∀ i, ∃ j, i ≤ j ∧ turn j = o

theorem exists_fairRun (book : RuleBook) (nonempty : m.operations ≠ []) :
    ∃ state turn, FairRun book m state turn ∧
      ∀ k, state (m.operations.length * k) = (rescan book m)^[k] .empty := by
  have pos : 0 < m.operations.length := List.length_pos_of_ne_nil nonempty
  let turn : Nat → Operation := fun i =>
    m.operations.get ⟨i % m.operations.length, Nat.mod_lt i pos⟩
  let state : Nat → MarkMap := fun i => Nat.rec .empty (fun i marks => write book marks (turn i)) i
  have hturn : ∀ k (j : Fin m.operations.length),
      turn (m.operations.length * k + j) = m.operations.get j := by
    intro k j
    simp [turn, Nat.mod_eq_of_lt j.2]
  have inside : ∀ k j, j ≤ m.operations.length →
      state (m.operations.length * k + j) =
        (m.operations.take j).foldl (write book) (state (m.operations.length * k)) := by
    intro k j
    induction j with
    | zero => exact fun _ => rfl
    | succ j ih =>
        intro hj
        rw [List.take_succ_eq_append_getElem hj, List.foldl_concat, ← ih (Nat.le_of_lt hj)]
        exact congrArg (write book _) (hturn k ⟨j, hj⟩)
  have passes : ∀ k, state (m.operations.length * k) = (rescan book m)^[k] .empty := by
    intro k
    induction k with
    | zero => rfl
    | succ k ih =>
        rw [Nat.mul_succ, inside k _ (Nat.le_refl _), List.take_length, ih,
          Function.iterate_succ_apply']
        rfl
  refine ⟨state, turn, ⟨rfl, fun _ => rfl, fun i => List.get_mem _ _, ?_⟩, passes⟩
  intro o ho i
  obtain ⟨j, hj⟩ := List.mem_iff_get.mp ho
  refine ⟨m.operations.length * i + j, ?_, (hturn i j).trans hj⟩
  have := Nat.le_mul_of_pos_left i pos
  omega

namespace FairRun

variable {state : Nat → MarkMap} {turn : Nat → Operation}

theorem keeps (run : FairRun book m state turn) (Inv : MarkMap → Prop) (start : Inv .empty)
    (step : ∀ o marks new, o ∈ m.operations → Inv marks →
      transfer book marks o = .ok (some new) → Inv (marks.insert (.default o.id) new)) (i : Nat) :
    Inv (state i) := by
  induction i with
  | zero =>
      rw [run.start]
      exact start
  | succ i ih =>
      rw [run.next, write]
      split
      · exact step (turn i) (state i) _ (run.member i) ih ‹_›
      · exact ih

theorem placed (run : FairRun book m state turn) (i : Nat) : Placed m (state i) :=
  run.keeps (Placed m) Placed.empty (fun _ _ _ ho placed ht => placed.insert ho ht) i

theorem marksOf_other (run : FairRun book m state turn) {i : Nat} {v : Value}
    (h : v ≠ .default (turn i).id) : marksOf (state (i + 1)) v = marksOf (state i) v := by
  have hf : (state (i + 1)).find? v = (state i).find? v := by
    rw [run.next]
    exact find?_write_of_ne h
  simp only [marksOf, secrecyOf, integrityOf, hf]

theorem marksOf_own (run : FairRun book m state turn) {i : Nat} {new : Marks}
    (h : transfer book (state i) (turn i) = .ok (some new)) :
    marksOf (state (i + 1)) (.default (turn i).id) = new := by
  apply marksOf_of_find?
  rw [run.next, write_of_transfer h, OrdMap.find?_insert_self]

theorem marksOf_idle (run : FairRun book m state turn)
    (distinct : (m.operations.map (·.id)).Nodup) (ho : o ∈ m.operations) {i : Nat}
    (h : turn i ≠ o) :
    marksOf (state (i + 1)) (.default o.id) = marksOf (state i) (.default o.id) := by
  apply run.marksOf_other
  intro e
  have hid : (turn i).id = o.id := by simpa [Value.default] using e.symm
  exact h (List.inj_on_of_nodup_map distinct (run.member i) ho hid)

/-! ## Growing -/

/-- At each value an order of marks in which no marks come first. -/
structure MarkOrder (Le : Value → Marks → Marks → Prop) : Prop where
  bottom : ∀ v a, Le v {} a
  refl : ∀ v a, Le v a a
  trans : ∀ v a b c, Le v a b → Le v b c → Le v a c

/-- Marks grow in an order in which what operations give grows along the run. The marks of an
operation that is visited are below what it gives, since this was so when it was visited last. -/
theorem grows (run : FairRun book m state turn) (distinct : (m.operations.map (·.id)).Nodup)
    (accepts : ∀ o, o ∈ m.operations → Accepts book o) {Le : Value → Marks → Marks → Prop}
    (order : MarkOrder Le)
    (monotone : ∀ i o a b, o ∈ m.operations →
      (∀ v, Le v (marksOf (state i) v) (marksOf (state (i + 1)) v)) →
      transfer book (state i) o = .ok (some a) → transfer book (state (i + 1)) o = .ok (some b) →
        Le (.default o.id) a b) (i : Nat) (v : Value) :
    Le v (marksOf (state i) v) (marksOf (state (i + 1)) v) := by
  have visited : ∀ i, (∀ o a, o ∈ m.operations → transfer book (state i) o = .ok (some a) →
      Le (.default o.id) (marksOf (state i) (.default o.id)) a) →
      ∀ v, Le v (marksOf (state i) v) (marksOf (state (i + 1)) v) := by
    intro i rising v
    by_cases hv : v = .default (turn i).id
    · obtain ⟨r, hr⟩ := transfer_total (accepts _ (run.member i)) (state i)
      cases r with
      | none =>
          have same : state (i + 1) = state i := by rw [run.next, write, hr]
          rw [same]
          exact order.refl v _
      | some new =>
          rw [hv, run.marksOf_own hr]
          exact rising _ new (run.member i) hr
    · rw [run.marksOf_other hv]
      exact order.refl v _
  have rising : ∀ i o a, o ∈ m.operations → transfer book (state i) o = .ok (some a) →
      Le (.default o.id) (marksOf (state i) (.default o.id)) a := by
    intro i
    induction i with
    | zero =>
        intro o a _ _
        rw [run.start]
        exact order.bottom _ a
    | succ i ih =>
        intro o b ho hb
        obtain ⟨a, ha⟩ := transfer_of_sql (accepts o ho) (mem_operators_of_transfer hb) (state i)
        have hab := monotone i o a b ho (visited i ih) ha hb
        by_cases mine : turn i = o
        · subst mine
          rw [run.marksOf_own ha]
          exact hab
        · rw [run.marksOf_idle distinct ho mine]
          exact order.trans _ _ a b (ih o a ho ha) hab
  exact visited i (rising i) v

theorem integrity_grows (run : FairRun book m state turn)
    (distinct : (m.operations.map (·.id)).Nodup)
    (accepts : ∀ o, o ∈ m.operations → Accepts book o) {rules : List PolicyRule}
    (holds : book.Holds rules) (i : Nat) (v : Value) :
    ∀ tag, tag ∈ integrityOf (state i) v → tag ∈ integrityOf (state (i + 1)) v := by
  have order : MarkOrder fun _ a b => ∀ tag, tag ∈ a.integrity → tag ∈ b.integrity :=
    ⟨fun _ _ tag ht => absurd ht (OrdSet.not_mem_empty tag), fun _ _ _ ht => ht,
      fun _ _ _ _ hab hbc tag ht => hbc tag (hab tag ht)⟩
  refine run.grows distinct accepts order ?_ i v
  intro i o a b _ grown ha hb tag htag
  rw [mem_integrity_transfer ha] at htag
  rw [mem_integrity_transfer hb]
  obtain ⟨hop, alters | ⟨named, w, hw, hmem⟩⟩ := htag
  · exact ⟨hop, .inl (alters.mono holds grown)⟩
  · exact ⟨hop, .inr ⟨named, w, hw, grown w tag hmem⟩⟩

/-- A rule that has acted acts from then on. -/
theorem alters_grows (run : FairRun book m state turn)
    (distinct : (m.operations.map (·.id)).Nodup)
    (accepts : ∀ o, o ∈ m.operations → Accepts book o) {rules : List PolicyRule}
    (holds : book.Holds rules) {action : RuleAction} {tag : Tag} (i : Nat)
    (h : Alters book (state i) o action tag) : Alters book (state (i + 1)) o action tag :=
  h.mono holds (run.integrity_grows distinct accepts holds i)

/-! ## Resting -/

/-- The marks of an operation come to rest where what it writes does: after its next visit they
are what it wrote last. -/
theorem settles_own (run : FairRun book m state turn) (distinct : (m.operations.map (·.id)).Nodup)
    (accepts : ∀ o, o ∈ m.operations → Accepts book o) (ho : o ∈ m.operations)
    (hop : o.operator ∈ Sql.operators) {P : Marks → Prop}
    (h : Settles fun i => ∃ new, transfer book (state i) o = .ok (some new) ∧ P new) :
    Settles fun i => P (marksOf (state i) (.default o.id)) := by
  obtain ⟨c, start, hc⟩ := h
  have written : ∀ i, start ≤ i → turn i = o →
      (P (marksOf (state (i + 1)) (.default o.id)) ↔ c) := by
    intro i hi mine
    subst mine
    obtain ⟨new, hnew⟩ := transfer_of_sql (accepts _ ho) hop (state i)
    rw [run.marksOf_own hnew, ← hc i hi]
    simp [hnew]
  obtain ⟨first, hfirst, mine⟩ := run.again o ho start
  refine ⟨c, first + 1, fun i hi => ?_⟩
  induction i, hi using Nat.le_induction with
  | base => exact written first hfirst mine
  | succ i hi ih =>
      by_cases mine : turn i = o
      · exact written i (by omega) mine
      · have idle := run.marksOf_idle distinct ho mine
        simpa only [idle] using ih

end FairRun

end Rescan

end TagFlow
