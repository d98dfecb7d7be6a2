import Mathlib.Data.List.ProdSigma
import TagFlow.Proofs.Policy.RescanFair
import TagFlow.Proofs.Program.Dataflow

/-! # Rescans with loops

A removal that waits for its roles to be filled lets a tag pass at first and takes it back
later. What it has let pass may run round a loop behind it for ever, after the tag is gone
everywhere else, and no loop has to add or remove anything for that. Without such a loop the
passes settle under all rules: where no waiting removal has acted the tag only spreads, and
behind one it is settled along the dataflow, since every loop there is cut by a removal.
-/

namespace TagFlow

namespace Rescan

open Relation (TransGen ReflTransGen)

variable {book : RuleBook} {m : Module} {tag : Tag} {o p r : Operation}

/-! ## How a tag moves -/

/-- What the first operation has of a tag reaches the second: a merge takes it from every input,
a tag transform from the value that it transforms. -/
def Hands (m : Module) (o p : Operation) : Prop :=
  o ∈ m.operations ∧ p ∈ m.operations ∧
    ((p.operator = Sql.merge ∧ Value.default o.id ∈ p.inputs) ∨
      (p.operator = Sql.tagTransform ∧ p.inputs[0]? = some (.default o.id)))

/-- A tag transform whose rule removes the tag once the given roles are filled, each of which
the rule knows. -/
structure Removes (book : RuleBook) (tag : Tag) (o : Operation) (roles : List (String × Value)) :
    Prop where
  operator : o.operator = Sql.tagTransform
  rule : ∃ entry, Names book o entry roles ∧ entry.action = .removeConfidentiality ∧
    entry.tag = tag ∧ ∀ role, role ∈ roles → (entry.required.find? role.1).isSome = true

def Waits (book : RuleBook) (tag : Tag) (o : Operation) : Prop :=
  ∃ roles, roles ≠ [] ∧ Removes book tag o roles

/-- From the operation back to itself the tag is handed on, past neither the given removal nor
one that always acts. -/
def Circles (book : RuleBook) (m : Module) (tag : Tag) (removal o : Operation) : Prop :=
  TransGen (fun p q => Hands m p q ∧ q ≠ removal ∧ ¬ Removes book tag q []) o o

def Tame (book : RuleBook) (m : Module) : Prop :=
  ∀ tag r, r ∈ m.operations → Waits book tag r → ∀ o, ReflTransGen (Hands m) r o →
    ¬ Circles book m tag r o

def Changes (book : RuleBook) (o : Operation) (action : RuleAction) (tag : Tag) : Prop :=
  o.operator = Sql.tagTransform ∧
    ∃ entry roles, Names book o entry roles ∧ entry.action = action ∧ entry.tag = tag

theorem removes_of_alters {marks : MarkMap} (hop : o.operator = Sql.tagTransform)
    (h : Alters book marks o .removeConfidentiality tag) : ∃ roles, Removes book tag o roles := by
  obtain ⟨entry, ⟨roles, names, hall⟩, hact, htag⟩ := h
  refine ⟨roles, hop, entry, names, hact, htag, ?_⟩
  intro role hrole
  have hfilled := hall role hrole
  unfold filled at hfilled
  cases hreq : entry.required.find? role.1 with
  | none => cases marks.find? role.2 <;> simp [hreq] at hfilled
  | some _ => rfl

theorem Removes.alters (h : Removes book tag o []) (marks : MarkMap) :
    Alters book marks o .removeConfidentiality tag := by
  obtain ⟨entry, names, hact, htag, -⟩ := h.rule
  exact ⟨entry, ⟨[], names, by simp⟩, hact, htag⟩

theorem not_receives_of_alters {marks : MarkMap} (hop : o.operator = Sql.tagTransform)
    (h : Alters book marks o .removeConfidentiality tag) : ¬ Receives book marks o tag := by
  rintro (⟨hmerge, -⟩ | ⟨-, adds | ⟨-, kept⟩⟩)
  · rw [hop] at hmerge
    exact absurd hmerge (by decide)
  · obtain ⟨entry, ⟨roles, names, -⟩, hact, -⟩ := h
    obtain ⟨entry', ⟨roles', names', -⟩, hact', -⟩ := adds
    rw [(names.unique names').1, hact'] at hact
    cases hact
  · exact kept h

theorem not_circles_of_rank (rank : OperationId → Nat)
    (h : ∀ p q, Hands m p q → q ≠ r → rank p.id < rank q.id) : ¬ Circles book m tag r o := by
  have grows : ∀ {a b : Operation},
      TransGen (fun p q => Hands m p q ∧ q ≠ r ∧ ¬ Removes book tag q []) a b →
        rank a.id < rank b.id := by
    intro a b hab
    induction hab with
    | single edge => exact h _ _ edge.1 edge.2.1
    | tail _ edge ih => exact Nat.lt_trans ih (h _ _ edge.1 edge.2.1)
  intro circles
  exact Nat.lt_irrefl _ (grows circles)

/-! ## Behind the removals that act -/

/-- A waiting removal whose roles are filled at some time. -/
def Acting (book : RuleBook) (m : Module) (state : Nat → MarkMap) (tag : Tag) (r : Operation) :
    Prop :=
  r ∈ m.operations ∧ Waits book tag r ∧ ∃ i, Alters book (state i) r .removeConfidentiality tag

/-- The tag may be handed to the operation by a removal that acts at some time. -/
def Downstream (book : RuleBook) (m : Module) (state : Nat → MarkMap) (tag : Tag)
    (o : Operation) : Prop :=
  ∃ r, Acting book m state tag r ∧ ReflTransGen (Hands m) r o

namespace FairRun

variable {state : Nat → MarkMap} {turn : Nat → Operation} {rules : List PolicyRule}

theorem exists_of_mem_secrecyOf (run : FairRun book m state turn) {i : Nat} {v : Value}
    (h : tag ∈ secrecyOf (state i) v) :
    ∃ q, q ∈ m.operations ∧ q.operator ∈ Sql.operators ∧ v = .default q.id := by
  obtain ⟨new, hf, -⟩ := exists_find?_of_mem_secrecyOf h
  exact run.placed i v new hf

theorem secrecy_grows (run : FairRun book m state turn)
    (distinct : (m.operations.map (·.id)).Nodup)
    (accepts : ∀ o, o ∈ m.operations → Accepts book o) (holds : book.Holds rules)
    (ho : o ∈ m.operations) (away : ¬ Downstream book m state tag o) (i : Nat)
    (h : tag ∈ secrecyOf (state i) (.default o.id)) :
    tag ∈ secrecyOf (state (i + 1)) (.default o.id) := by
  let Away : Value → Prop := fun v =>
    ∃ o, o ∈ m.operations ∧ v = .default o.id ∧ ¬ Downstream book m state tag o
  have order : MarkOrder fun v a b => Away v → tag ∈ a.secrecy → tag ∈ b.secrecy :=
    ⟨fun _ _ _ ht => absurd ht (OrdSet.not_mem_empty tag), fun _ _ _ ht => ht,
      fun _ _ _ _ hab hbc hv ht => hbc hv (hab hv ht)⟩
  refine run.grows distinct accepts order ?_ i (.default o.id) ⟨o, ho, rfl, away⟩ h
  rintro i p a b hp grown ha hb ⟨q, hq, hv, hq'⟩ htag
  have hid : q.id = p.id := by simpa [Value.default] using hv.symm
  rw [List.inj_on_of_nodup_map distinct hq hp hid] at hq'
  have handed : ∀ v, (∀ s, s ∈ m.operations → v = .default s.id → Hands m s p) →
      tag ∈ secrecyOf (state i) v → tag ∈ secrecyOf (state (i + 1)) v := by
    intro v hands hmem
    obtain ⟨s, hs, -, rfl⟩ := run.exists_of_mem_secrecyOf hmem
    refine grown _ ⟨s, hs, rfl, ?_⟩ hmem
    rintro ⟨r, acting, reach⟩
    exact hq' ⟨r, acting, reach.tail (hands s hs rfl)⟩
  rw [mem_secrecy_transfer ha] at htag
  rw [mem_secrecy_transfer hb]
  rcases htag with ⟨hop, v, hv, hmem⟩ | ⟨hop, adds | ⟨⟨v, hv, hmem⟩, kept⟩⟩
  · refine .inl ⟨hop, v, hv, handed v ?_ hmem⟩
    intro s hs e
    exact ⟨hs, hp, .inl ⟨hop, e ▸ hv⟩⟩
  · exact .inr ⟨hop, .inl (run.alters_grows distinct accepts holds i adds)⟩
  · refine .inr ⟨hop, .inr ⟨⟨v, hv, handed v ?_ hmem⟩, ?_⟩⟩
    · intro s hs e
      exact ⟨hs, hp, .inr ⟨hop, e ▸ hv⟩⟩
    · intro removes
      obtain ⟨roles, hroles⟩ := removes_of_alters hop removes
      cases roles with
      | nil => exact kept (hroles.alters (state i))
      | cons role rest =>
          exact hq' ⟨p, ⟨hp, ⟨_, List.cons_ne_nil _ _, hroles⟩, i + 1, removes⟩, .refl⟩

theorem settles_value (run : FairRun book m state turn) {v : Value}
    (h : ∀ q, q ∈ m.operations → v = .default q.id →
      Settles fun i => tag ∈ secrecyOf (state i) (.default q.id)) :
    Settles fun i => tag ∈ secrecyOf (state i) v := by
  by_cases inside : ∃ q, q ∈ m.operations ∧ v = .default q.id
  · obtain ⟨q, hq, rfl⟩ := inside
    exact h q hq rfl
  · refine .of_never (fun i (_ : 0 ≤ i) hmem => ?_)
    obtain ⟨q, hq, -, hv⟩ := run.exists_of_mem_secrecyOf hmem
    exact inside ⟨q, hq, hv⟩

theorem settles_receives (run : FairRun book m state turn)
    (distinct : (m.operations.map (·.id)).Nodup)
    (accepts : ∀ o, o ∈ m.operations → Accepts book o) (holds : book.Holds rules)
    (ho : o ∈ m.operations)
    (h : ∀ q, Hands m q o → Settles fun i => tag ∈ secrecyOf (state i) (.default q.id)) :
    Settles fun i => Receives book (state i) o tag := by
  by_cases hmerge : o.operator = Sql.merge
  · have inputs : Settles fun i => ∃ v, v ∈ o.inputs ∧ tag ∈ secrecyOf (state i) v :=
      .exists_mem fun v hv => run.settles_value fun q hq e =>
        h q ⟨hq, ho, .inl ⟨hmerge, e ▸ hv⟩⟩
    refine inputs.of_iff fun i => ?_
    simp [Receives, hmerge, show Sql.merge ≠ Sql.tagTransform by decide]
  · by_cases htransform : o.operator = Sql.tagTransform
    · have alters : ∀ action, Settles fun i => Alters book (state i) o action tag := fun _ =>
        .of_grows fun i => run.alters_grows distinct accepts holds i
      have first : Settles fun i => ∃ v, o.inputs[0]? = some v ∧ tag ∈ secrecyOf (state i) v := by
        cases hv : o.inputs[0]? with
        | none => exact .of_never (fun i (_ : 0 ≤ i) ⟨_, e, _⟩ => by cases e)
        | some v =>
            refine (run.settles_value (v := v) fun q hq e =>
              h q ⟨hq, ho, .inr ⟨htransform, e ▸ hv⟩⟩).of_iff fun i => ?_
            simp
      refine ((alters .addConfidentiality).or
        (first.and (alters .removeConfidentiality).not)).of_iff fun i => ?_
      simp [Receives, htransform, show Sql.tagTransform ≠ Sql.merge by decide]
    · refine .of_never (fun i (_ : 0 ≤ i) hr => ?_)
      rcases hr with ⟨e, -⟩ | ⟨e, -⟩
      · exact hmerge e
      · exact htransform e

theorem settles_removed (run : FairRun book m state turn)
    (distinct : (m.operations.map (·.id)).Nodup)
    (accepts : ∀ o, o ∈ m.operations → Accepts book o) (holds : book.Holds rules)
    (h : Acting book m state tag o ∨ Removes book tag o []) :
    Settles fun i => Receives book (state i) o tag := by
  obtain ⟨hop, start, hstart⟩ : o.operator = Sql.tagTransform ∧
      ∃ start, Alters book (state start) o .removeConfidentiality tag := by
    rcases h with ⟨-, ⟨roles, -, removes⟩, start, hstart⟩ | removes
    · exact ⟨removes.operator, start, hstart⟩
    · exact ⟨removes.operator, 0, removes.alters (state 0)⟩
  refine .of_never (fun i (hi : start ≤ i) => not_receives_of_alters hop ?_)
  exact Nat.le_induction hstart (fun k _ => run.alters_grows distinct accepts holds k) i hi

/-- Every tag comes to rest at every operation: away from removals that act because it only
spreads, and behind them along the dataflow, where each loop meets a removal. -/
theorem settles_secrecy (run : FairRun book m state turn)
    (distinct : (m.operations.map (·.id)).Nodup)
    (accepts : ∀ o, o ∈ m.operations → Accepts book o) (holds : book.Holds rules)
    (tame : Tame book m) (tag : Tag) (ho : o ∈ m.operations) :
    Settles fun i => tag ∈ secrecyOf (state i) (.default o.id) := by
  let Cut : Operation → Prop := fun q => Acting book m state tag q ∨ Removes book tag q []
  let Behind : Operation → Operation → Prop := fun p q =>
    Downstream book m state tag p ∧ Hands m p q ∧ ¬ Cut q
  have uncut : ∀ a, ¬ TransGen Behind a a := by
    intro a loop
    obtain ⟨r, acting, reach⟩ : Downstream book m state tag a := by
      obtain ⟨b, hab, -⟩ := TransGen.head'_iff.mp loop
      exact hab.1
    have past : ∀ p q, Behind p q → Hands m p q ∧ q ≠ r ∧ ¬ Removes book tag q [] := by
      rintro p q ⟨_, hands, hq⟩
      exact ⟨hands, fun e => hq (.inl (e ▸ acting)), fun removes => hq (.inr removes)⟩
    exact tame tag r acting.1 acting.2.1 a reach (TransGen.mono past a a loop)
  have acc : Acc Behind o := acc_of_finite (fun _ _ h => h.2.1.2.1) fun a _ => uncut a
  induction acc with
  | intro o _ ih =>
      by_cases hop : o.operator ∈ Sql.operators
      · have receives : Settles fun i => Receives book (state i) o tag := by
          by_cases cut : Cut o
          · exact run.settles_removed distinct accepts holds cut
          · refine run.settles_receives distinct accepts holds ho fun q hands => ?_
            by_cases down : Downstream book m state tag q
            · exact ih q ⟨down, hands, cut⟩ hands.1
            · exact .of_grows (run.secrecy_grows distinct accepts holds hands.1 down)
        refine run.settles_own distinct accepts ho hop (P := fun new => tag ∈ new.secrecy)
          (receives.of_iff fun i => ?_)
        obtain ⟨new, hnew⟩ := transfer_of_sql (accepts o ho) hop (state i)
        simp [hnew, mem_secrecy_transfer hnew]
      · refine .of_never (fun i (_ : 0 ≤ i) hmem => hop ?_)
        obtain ⟨q, hq, hqop, hv⟩ := run.exists_of_mem_secrecyOf hmem
        have hid : o.id = q.id := by simpa [Value.default] using hv
        exact List.inj_on_of_nodup_map distinct ho hq hid ▸ hqop

/-! ## Coming to rest -/

theorem numbered (run : FairRun book m state turn) (holds : book.Holds rules) (i : Nat) :
    Numbered book (state i) :=
  run.keeps (Numbered book) Numbered.empty (fun _ _ _ _ numbered ht => numbered.insert holds ht) i

theorem entry_grows (run : FairRun book m state turn) {v : Value} (i : Nat)
    (h : ((state i).find? v).isSome = true) : ((state (i + 1)).find? v).isSome = true := by
  rw [run.next, write]
  split
  · rw [OrdMap.find?_insert]
    split
    · rfl
    · exact h
  · exact h

theorem exists_rest (run : FairRun book m state turn)
    (distinct : (m.operations.map (·.id)).Nodup)
    (accepts : ∀ o, o ∈ m.operations → Accepts book o) (holds : book.Holds rules)
    (tame : Tame book m) : ∃ start, ∀ i, start ≤ i → state i = state start := by
  obtain ⟨s, hs⟩ := Settles.common (l := m.operations.product (List.range book.tagNames.length))
    (F := fun q i => q.2 ∈ secrecyOf (state i) (.default q.1.id)) fun q hq =>
      run.settles_secrecy distinct accepts holds tame q.2 (List.mem_product.mp hq).1
  obtain ⟨t, ht⟩ := Settles.common (l := m.operations.product (List.range book.tagNames.length))
    (F := fun q i => q.2 ∈ integrityOf (state i) (.default q.1.id)) fun q _ =>
      .of_grows fun i => run.integrity_grows distinct accepts holds i _ q.2
  obtain ⟨e, he⟩ := Settles.common (l := m.operations)
    (F := fun o i => ((state i).find? (.default o.id)).isSome = true) fun o _ =>
      .of_grows run.entry_grows
  refine ⟨max s (max t e), fun i hi => (run.placed i).ext (run.placed _) fun o ho => ?_⟩
  have entries := he o ho i (max s (max t e)) (by omega) (by omega)
  cases ha : (state i).find? (.default o.id) with
  | none =>
      rw [ha, Option.isSome_none, Bool.false_eq_true, false_iff, Option.not_isSome_iff_eq_none]
        at entries
      exact entries.symm
  | some a =>
      obtain ⟨b, hb⟩ := Option.isSome_iff_exists.mp (entries.mp (by rw [ha]; rfl))
      have listed : ∀ tag, tag < book.tagNames.length →
          (o, tag) ∈ m.operations.product (List.range book.tagNames.length) := fun tag hlt =>
        List.mem_product.mpr ⟨ho, List.mem_range.mpr hlt⟩
      have secrecy : a.secrecy = b.secrecy := by
        refine eq_of_iff_below (run.numbered holds i _ a ha).1 (run.numbered holds _ _ b hb).1 ?_
        intro tag hlt
        rw [← secrecyOf_of_find? ha, ← secrecyOf_of_find? hb]
        exact hs _ (listed tag hlt) i _ (by omega) (by omega)
      have integrity : a.integrity = b.integrity := by
        refine eq_of_iff_below (run.numbered holds i _ a ha).2 (run.numbered holds _ _ b hb).2 ?_
        intro tag hlt
        rw [← integrityOf_of_find? ha, ← integrityOf_of_find? hb]
        exact ht _ (listed tag hlt) i _ (by omega) (by omega)
      rw [hb, Option.some.injEq]
      exact (Marks.mk.injEq _ _ _ _).mpr ⟨secrecy, integrity⟩

theorem solved_of_rest (run : FairRun book m state turn)
    (accepts : ∀ o, o ∈ m.operations → Accepts book o) {i : Nat}
    (rest : ∀ j, i ≤ j → state j = state i) (ho : o ∈ m.operations) : Solved book (state i) o := by
  obtain ⟨j, hj, mine⟩ := run.again o ho i
  have written := run.next j
  rw [rest (j + 1) (by omega), rest j hj, mine] at written
  obtain ⟨result, hresult⟩ := transfer_total (accepts o ho) (state i)
  cases result with
  | none => exact .inl hresult
  | some new =>
      refine .inr ⟨new, hresult, ?_⟩
      rw [write_of_transfer hresult] at written
      rw [written, OrdMap.find?_insert_self]

end FairRun

theorem fixpoint_of_tame {rules : List PolicyRule} (hbook : RuleBook.ofRules rules = .ok book)
    (distinct : (m.operations.map (·.id)).Nodup)
    (accepts : ∀ o, o ∈ m.operations → Accepts book o) (tame : Tame book m) :
    ∃ f, fixpoint book m = .ok (some f) := by
  have holds := RuleBook.holds_ofRules hbook
  by_cases nonempty : m.operations = []
  · exact fixpoint_of_solved hbook accepts (k := 0) (by simp [nonempty])
  · obtain ⟨state, turn, run, passes⟩ := exists_fairRun book nonempty
    obtain ⟨start, hrest⟩ := run.exists_rest distinct accepts holds tame
    have pos : 0 < m.operations.length := List.length_pos_of_ne_nil nonempty
    have later : start ≤ m.operations.length * start := Nat.le_mul_of_pos_left start pos
    refine fixpoint_of_solved hbook accepts (k := start) fun o ho => ?_
    rw [← passes start]
    refine run.solved_of_rest accepts (fun j hj => ?_) ho
    rw [hrest j (by omega), hrest _ later]

/-- The passes settle on a solution if no tag circles behind a removal that waits, whether or
not some loop both adds and removes a tag. -/
theorem fixpoint_unless_circling {rules : List PolicyRule}
    (hbook : RuleBook.ofRules rules = .ok book) (distinct : (m.operations.map (·.id)).Nodup)
    (evaluable : ∀ o, o ∈ m.operations → ∃ marks r, transfer book marks o = .ok r)
    (tame : Tame book m) :
    ∃ f, fixpoint book m = .ok (some f) ∧ pass book m f.marks = .ok (f.marks, false) ∧
      Solution book m f.marks := by
  obtain ⟨f, hf⟩ := fixpoint_of_tame hbook distinct (accepts_of_evaluable evaluable) tame
  exact ⟨f, hf, pass_of_solved (run_solved hf), run_solution hf⟩

/-! ## A loop with a release in it -/

namespace Recycling

/-- Operations 1, 2 and 3 form a loop that adds the secret and removes it, the latter only
after a review that comes later in the module. -/
def root : Module :=
  ⟨0, [⟨0, none, .empty, .empty, .empty,
    [.standalone 0 Sql.literal [] [],
      .standalone 2 Sql.merge [(Sql.controlStart, .integer 2)] [.result 0 0, .result 3 0],
      .standalone 1 Sql.tagTransform [(Sql.ruleName, .text "classify")] [.result 2 0],
      .standalone 3 Sql.tagTransform
        [(Sql.ruleName, .text "release"), ("reviewer", .integer 1)] [.result 1 0, .result 4 0],
      .standalone 4 Sql.tagTransform [(Sql.ruleName, .text "review")] [.result 0 0],
      .standalone 5 Sql.output [] [.result 3 0]]⟩]⟩

theorem tame {book : RuleBook}
    (removals : ∀ o, o ∈ root.operations →
      namedAction? book o = some .removeConfidentiality → o.id = 3) : Tame book root := by
  have ranked : ∀ p, p ∈ root.operations → ∀ q, q ∈ root.operations → q.id ≠ 3 →
      ((q.operator = Sql.merge ∧ Value.default p.id ∈ q.inputs) ∨
        (q.operator = Sql.tagTransform ∧ q.inputs[0]? = some (.default p.id))) →
      [0, 2, 1, 0, 1].getD p.id 0 < [0, 2, 1, 0, 1].getD q.id 0 := by decide
  rintro tag r hr ⟨roles, -, removes⟩ o -
  apply not_circles_of_rank fun id => [0, 2, 1, 0, 1].getD id 0
  rintro p q ⟨hp, hq, edge⟩ hne
  refine ranked p hp q hq (fun hid => hne ?_) edge
  obtain ⟨entry, names, hact, -, -⟩ := removes.rule
  have hrid := removals r hr (names.namedAction?_eq.trans (congrArg some hact))
  exact List.inj_on_of_nodup_map (by decide : (root.operations.map (·.id)).Nodup) hq hr
    (hid.trans hrid.symm)

theorem fixpoint_unless_circling_root :
    (root.operations.map (·.id)).Nodup ∧ ∃ book f, RuleBook.ofRules Release.rules = .ok book ∧
      (∀ o, o ∈ root.operations → ∃ marks r, transfer book marks o = .ok r) ∧ Tame book root ∧
        fixpoint book root = .ok (some f) ∧ pass book root f.marks = .ok (f.marks, false) ∧
          Solution book root f.marks := by
  have distinct : (root.operations.map (·.id)).Nodup := by decide
  obtain ⟨book, hbook, onNothing, removals⟩ : ∃ book, RuleBook.ofRules Release.rules = .ok book ∧
      (∀ o, o ∈ root.operations → (transfer book .empty o).isOk = true) ∧
        ∀ o, o ∈ root.operations → namedAction? book o = some .removeConfidentiality → o.id = 3 :=
    ⟨_, rfl, by decide, by decide⟩
  have evaluable := evaluable_of_isOk onNothing
  obtain ⟨f, hf, still, solution⟩ :=
    fixpoint_unless_circling hbook distinct evaluable (tame removals)
  exact ⟨distinct, book, f, hbook, evaluable, tame removals, hf, still, solution⟩

end Recycling

/-! ## A tag that echoes round a loop -/

/-- A loop of the dataflow runs through a transform that adds the tag and one that removes it. -/
def Mixes (book : RuleBook) (m : Module) (tag : Tag) : Prop :=
  ∃ o p, o ∈ m.operations ∧ p ∈ m.operations ∧ Changes book o .addConfidentiality tag ∧
    Changes book p .removeConfidentiality tag ∧ TransGen m.Feeds o.id p.id ∧
      TransGen m.Feeds p.id o.id

theorem run_of_return {x y : MarkMap} (hx : pass book m x = .ok (y, true))
    (hy : pass book m y = .ok (x, true)) (limit passes : Nat) :
    run book m limit ⟨x, passes⟩ = .ok none ∧ run book m limit ⟨y, passes⟩ = .ok none := by
  induction limit generalizing passes with
  | zero => exact ⟨rfl, rfl⟩
  | succ limit ih =>
      obtain ⟨fromX, fromY⟩ := ih (passes + 1)
      constructor
      · rw [run, hx]
        exact fromY
      · rw [run, hy]
        exact fromX

namespace Echo

/-- The release 2 reads a review that comes later, so the secret passes it once and enters the
loop of the merges 3, 4 and 5, which hand it on against the order of the module. -/
def root : Module :=
  ⟨0, [⟨0, none, .empty, .empty, .empty,
    [.standalone 0 Sql.literal [] [],
      .standalone 1 Sql.tagTransform [(Sql.ruleName, .text "classify")] [.result 0 0],
      .standalone 2 Sql.tagTransform
        [(Sql.ruleName, .text "release"), ("reviewer", .integer 1)] [.result 1 0, .result 6 0],
      .standalone 3 Sql.merge [(Sql.controlStart, .integer 1)] [.result 4 0],
      .standalone 4 Sql.merge [(Sql.controlStart, .integer 1)] [.result 5 0],
      .standalone 5 Sql.merge [(Sql.controlStart, .integer 2)] [.result 3 0, .result 2 0],
      .standalone 6 Sql.tagTransform [(Sql.ruleName, .text "review")] [.result 0 0]]⟩]⟩

def sighting (ids : List OperationId) : MarkMap :=
  .ofList ((List.range 7).map fun id =>
    (.default id, ⟨if id ∈ ids then .ofList [0] else .empty,
      if id = 6 then .ofList [1] else .empty⟩))

theorem not_mixes {book : RuleBook}
    (adds : ∀ o, o ∈ root.operations → namedAction? book o = some .addConfidentiality → o.id = 1)
    (tag : Tag) : ¬ Mixes book root tag := by
  have reads : ∀ o, o ∈ root.operations → o.id ∈ [0, 1] → ∀ v, v ∈ o.inputs →
      v.operation? = some 0 := by decide
  have literal : ∀ o, o ∈ root.operations → o.operator = Sql.tagTransform → o.id ≠ 0 := by decide
  have feeds : ∀ {a b}, root.Feeds a b → b ∈ [0, 1] → a = 0 := by
    rintro a b ⟨o, ho, hid, index, hin⟩ hb
    exact Option.some.inj (reads o ho (hid ▸ hb) _ hin)
  have leads : ∀ {a b}, TransGen root.Feeds a b → b ∈ [0, 1] → a = 0 := by
    intro a b hab
    induction hab with
    | single hb => exact feeds hb
    | tail _ hb ih => exact fun hc => ih (by rw [feeds hb hc]; decide)
  rintro ⟨o, p, ho, hp, ⟨-, entry, roles, names, hact, -⟩, ⟨removes, -⟩, -, back⟩
  have hid := adds o ho (names.namedAction?_eq.trans (congrArg some hact))
  exact literal p hp removes (leads back (by rw [hid]; decide))

/-- No loop of the module adds a tag, and yet no number of passes is enough. -/
theorem echo_never_settles :
    (root.operations.map (·.id)).Nodup ∧ ∃ book, RuleBook.ofRules Release.rules = .ok book ∧
      (∀ o, o ∈ root.operations → ∃ marks r, transfer book marks o = .ok r) ∧
        (∀ tag, ¬ Mixes book root tag) ∧ ∀ limit, run book root limit {} = .ok none := by
  obtain ⟨book, hbook, onNothing, adds, first, second, third, fourth⟩ :
      ∃ book, RuleBook.ofRules Release.rules = .ok book ∧
        (∀ o, o ∈ root.operations → (transfer book .empty o).isOk = true) ∧
        (∀ o, o ∈ root.operations → namedAction? book o = some .addConfidentiality → o.id = 1) ∧
        pass book root .empty = .ok (sighting [1, 2, 5], true) ∧
        pass book root (sighting [1, 2, 5]) = .ok (sighting [1, 4], true) ∧
        pass book root (sighting [1, 4]) = .ok (sighting [1, 3, 5], true) ∧
        pass book root (sighting [1, 3, 5]) = .ok (sighting [1, 4], true) := by
    decide +kernel
  refine ⟨by decide, book, hbook, evaluable_of_isOk onNothing, not_mixes adds, ?_⟩
  intro limit
  match limit with
  | 0 => rfl
  | 1 =>
      rw [run, first]
      rfl
  | limit + 2 =>
      rw [run, first]
      change run book root (limit + 1) ⟨sighting [1, 2, 5], 1⟩ = .ok none
      rw [run, second]
      exact (run_of_return third fourth limit 2).1

end Echo

end Rescan

end TagFlow
