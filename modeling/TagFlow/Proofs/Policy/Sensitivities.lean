import Mathlib.Logic.Relation
import Mathlib.Order.Bounds.Basic
import TagFlow.Proofs.Policy.Roles
import TagFlow.Proofs.Policy.Walks

/-! # Sensitivities in closed form

The sensitivity of an output is the largest that any route to its operation amounts to. There
may be infinitely many routes; a loop through a grouping that data reaches doubles again and
again, so that everything after it has the largest word.
-/

namespace TagFlow

namespace Privacy

/-- The second operation reads some output of the first. -/
def Hands (p q : Operation) : Prop := ∃ v, v ∈ p.outputs ∧ v ∈ q.inputs

instance (p q : Operation) : Decidable (Hands p q) :=
  inferInstanceAs (Decidable (∃ v, v ∈ p.outputs ∧ v ∈ q.inputs))

/-- Data enters at the operation: it has no inputs, or it reads a value from outside. -/
def Enters (o : Operation) : Prop := o.inputs = [] ∨ ∃ v, v ∈ o.inputs ∧ v.isResult = false

instance (o : Operation) : Decidable (Enters o) :=
  inferInstanceAs (Decidable (o.inputs = [] ∨ ∃ v, v ∈ o.inputs ∧ v.isResult = false))

/-- The operations on a way to an operation, itself included: data enters at the first, and
each later one reads some output of the one before. -/
inductive Route (ops : List Operation) : List Operation → Operation → Prop where
  | start {o : Operation} (member : o ∈ ops) (enters : Enters o) : Route ops [o] o
  | next {path : List Operation} {p o : Operation} (route : Route ops path p) (member : o ∈ ops)
      (hands : Hands p o) : Route ops (path ++ [o]) o

def Next (ops : List Operation) (p q : Operation) : Prop := q ∈ ops ∧ Hands p q

variable {ops path : List Operation} {o p q : Operation}

theorem Route.member (h : Route ops path o) : o ∈ ops := by
  cases h <;> assumption

/-! ## Routes and walks -/

theorem Route.walk (h : Route ops path o) {i : Nat} (hi : i < o.outputCount) :
    Walk ops path (.result o.id i) := by
  induction h generalizing i with
  | start member enters =>
      rcases enters with closed | ⟨v, reads, external⟩
      · exact .source member closed hi
      · exact .next (.outside external) member reads hi
  | next route member hands ih =>
      obtain ⟨v, hv, reads⟩ := hands
      obtain ⟨j, hj, rfl⟩ := FlowGraph.mem_outputs.mp hv
      exact .next (ih hj) member reads hi

/-- A walk is empty and stays outside, or it is a route to what produces the value. -/
theorem Walk.route {v : Value} (h : Walk ops path v) :
    (path = [] ∧ v.isResult = false) ∨
      ∃ o i, v = .result o.id i ∧ i < o.outputCount ∧ Route ops path o := by
  induction h with
  | outside external => exact .inl ⟨rfl, external⟩
  | source member closed output => exact .inr ⟨_, _, rfl, output, .start member (.inl closed)⟩
  | next walk member reads output ih =>
      rcases ih with ⟨rfl, external⟩ | ⟨p, j, rfl, hj, route⟩
      · exact .inr ⟨_, _, rfl, output, .start member (.inr ⟨_, reads, external⟩)⟩
      · have hands : Hands p _ := ⟨_, FlowGraph.mem_outputs.mpr ⟨j, hj, rfl⟩, reads⟩
        exact .inr ⟨_, _, rfl, output, .next route member hands⟩

theorem Walk.route_to (distinct : (ops.map (·.id)).Nodup) (ho : o ∈ ops) {i : Nat}
    (h : Walk ops path (.result o.id i)) : Route ops path o := by
  rcases h.route with ⟨-, external⟩ | ⟨q, j, same, -, route⟩
  · cases external
  · injection same with hid
    exact List.inj_on_of_nodup_map distinct route.member ho hid.symm ▸ route

/-! ## Going on -/

theorem Route.extend (h : Route ops path p) (way : Relation.ReflTransGen (Next ops) p q) :
    ∃ longer, Route ops longer q ∧ groupings path ≤ groupings longer := by
  induction way with
  | refl => exact ⟨path, h, Nat.le_refl _⟩
  | tail _ step ih =>
      obtain ⟨longer, route, hle⟩ := ih
      refine ⟨longer ++ [_], .next route step.1 step.2, ?_⟩
      rw [groupings_concat]
      omega

theorem Route.extend_grouping (h : Route ops path p) (way : Relation.TransGen (Next ops) p q)
    (grouping : q.operator = groupBy) :
    ∃ longer, Route ops longer q ∧ groupings path < groupings longer := by
  obtain ⟨r, before, member, hands⟩ := Relation.TransGen.tail'_iff.mp way
  obtain ⟨longer, route, hle⟩ := h.extend before
  have groups : Groups q := by
    obtain ⟨v, -, reads⟩ := hands
    exact ⟨grouping, List.ne_nil_of_mem reads⟩
  refine ⟨longer ++ [q], .next route member hands, ?_⟩
  rw [groupings_concat, if_pos groups]
  omega

/-- Each turn of a loop through a grouping groups once more. -/
theorem Route.loop (h : Route ops path p) (out : Relation.TransGen (Next ops) p q)
    (grouping : q.operator = groupBy) (back : Relation.TransGen (Next ops) q p) (turns : Nat) :
    ∃ longer, Route ops longer p ∧ turns ≤ groupings longer := by
  induction turns with
  | zero => exact ⟨path, h, Nat.zero_le _⟩
  | succ turns ih =>
      obtain ⟨first, route, hfirst⟩ := ih
      obtain ⟨half, route, hhalf⟩ := route.extend_grouping out grouping
      obtain ⟨whole, route, hwhole⟩ := route.extend back.to_reflTransGen
      exact ⟨whole, route, by omega⟩

theorem doublings_of_many (h : 64 ≤ groupings path) : doublings path = UInt64.size - 1 := by
  have large : UInt64.size ≤ 2 ^ groupings path := Nat.pow_le_pow_right Nat.two_pos h
  rw [doublings]
  omega

/-! ## The closed form -/

/-- What the routes to an operation amount to. -/
def Amounts (ops : List Operation) (o : Operation) : Set Nat :=
  { n | ∃ path, Route ops path o ∧ n = min (2 ^ groupings path) (UInt64.size - 1) }

section

variable {states : States (Option UInt64)} (distinct : (ops.map (·.id)).Nodup)
  (returned : Worklist.solve analysis (.ofOperations ops) = .ok states)

include distinct returned

theorem isGreatest_amounts (post : Worklist.PostFixpoint analysis ops states)
    (h : Route ops path o) {i : Nat} (hi : i < o.outputCount) :
    ∃ a, states.find? (.result o.id i) = some (some a) ∧ IsGreatest (Amounts ops o) a.toNat := by
  have above : ∀ way, Route ops way o →
      AtLeast (Worklist.stateOf analysis states (.result o.id i)) (doublings way) :=
    fun way route => walk_atLeast post (route.walk hi) nofun
  obtain ⟨a, ha, -⟩ := above path h
  refine ⟨a, Worklist.find?_of_stateOf ha (Option.some_ne_none a), ?_, ?_⟩
  · obtain ⟨way, walk, amount⟩ := solve_traced returned ha
    exact ⟨way, walk.route_to distinct h.member, amount⟩
  · rintro n ⟨way, route, rfl⟩
    obtain ⟨b, hb, hle⟩ := above way route
    rw [ha, Option.some.injEq] at hb
    exact hb ▸ hle

theorem find?_of_no_route (ho : o ∈ ops) (none : ∀ path, ¬ Route ops path o) (i : Nat) :
    states.find? (.result o.id i) = Option.none ∨
      states.find? (.result o.id i) = some Option.none := by
  cases hf : states.find? (.result o.id i) with
  | none => exact .inl rfl
  | some s =>
      cases s with
      | none => exact .inr rfl
      | some a =>
          obtain ⟨path, walk, -⟩ := solve_traced returned (Worklist.stateOf_of_find? hf)
          exact absurd (walk.route_to distinct ho) (none path)

/-- After a loop through a grouping that data reaches, sensitivities are at the largest word. -/
theorem find?_after_loop (post : Worklist.PostFixpoint analysis ops states)
    (h : Route ops path p) (out : Relation.TransGen (Next ops) p q)
    (grouping : q.operator = groupBy) (back : Relation.TransGen (Next ops) q p)
    (after : Relation.ReflTransGen (Next ops) p o) {i : Nat} (hi : i < o.outputCount) :
    states.find? (.result o.id i) = some (some (UInt64.ofNat (UInt64.size - 1))) := by
  obtain ⟨turned, route, many⟩ := h.loop out grouping back 64
  obtain ⟨longer, route, hle⟩ := route.extend after
  obtain ⟨a, ha, -, above⟩ := isGreatest_amounts distinct returned post route hi
  have full : UInt64.size - 1 ≤ a.toNat := by
    rw [← doublings_of_many (Nat.le_trans many hle)]
    exact above ⟨longer, route, rfl⟩
  rw [ha]
  refine congrArg (some ∘ some) (UInt64.toNat_inj.mp ?_)
  have below : a.toNat < UInt64.size := a.toNat_lt_size
  rw [UInt64.toNat_ofNat_of_lt' (by decide)]
  omega

end

/-- Sensitivities are always returned. A value from outside that is read has 1. An output has
the largest amount of all routes to its operation, and nothing where there is no route. After a
loop through a grouping that data reaches at some operation, it has the largest word. -/
theorem sensitivities_eq_max_routes (m : Module) (distinct : (m.occurrences.map (·.id)).Nodup) :
    ∃ states, sensitivities m = .ok states ∧
      (∀ o, o ∈ m.occurrences → ∀ v, v ∈ o.inputs → v.isResult = false →
        states.find? v = some (some 1)) ∧
      (∀ o, o ∈ m.occurrences → ∀ i, i < o.outputCount →
        ((∃ path, Route m.occurrences path o) →
          ∃ a, states.find? (.result o.id i) = some (some a) ∧
            IsGreatest (Amounts m.occurrences o) a.toNat) ∧
        ((∀ path, ¬ Route m.occurrences path o) →
          states.find? (.result o.id i) = none ∨ states.find? (.result o.id i) = some none)) ∧
      ∀ path p q, Route m.occurrences path p →
        Relation.TransGen (Next m.occurrences) p q → q.operator = groupBy →
        Relation.TransGen (Next m.occurrences) q p →
        ∀ o, Relation.ReflTransGen (Next m.occurrences) p o → ∀ i, i < o.outputCount →
          states.find? (.result o.id i) = some (some (UInt64.ofNat (UInt64.size - 1))) := by
  obtain ⟨states, returned, post⟩ := Worklist.solve_postFixpoint analysis_joinLaws analysis_ranked
    analysis_strict distinct (analysis_totalOn m.occurrences)
  refine ⟨states, returned, post.outside, ?_, ?_⟩
  · intro o ho i hi
    refine ⟨?_, fun none => find?_of_no_route distinct returned ho none i⟩
    rintro ⟨path, route⟩
    exact isGreatest_amounts distinct returned post route hi
  · intro path p q route out grouping back o after i hi
    exact find?_after_loop distinct returned post route out grouping back after hi

/-! ## A loop through a grouping -/

namespace Regrouping

def grouped : Operation := .standalone 1 groupBy [] [.result 0 0, .result 2 0]

def filtered : Operation := .standalone 2 "core.filter" [] [.result 1 0]

def inner : Operation := .standalone 4 "core.step" [] [.result 2 0]

def outer : Operation :=
  { Operation.standalone 3 "core.step" [] [.any] with
    body := some ⟨1, [⟨1, none, .empty, .empty, .empty, [inner]⟩]⟩ }

/-- Groups only what it yields itself. -/
def idle : Operation := .standalone 5 groupBy [] [.result 5 0]

/-- The grouping and the filter feed each other. -/
def root : Module :=
  ⟨0, [⟨0, none, .empty, .empty, .empty,
    [.standalone 0 "core.table" [] [], grouped, filtered, outer, idle]⟩]⟩

theorem grouped_route : ∃ path, Route root.occurrences path grouped := by
  have source : Route root.occurrences [.standalone 0 "core.table" [] []] _ :=
    .start (List.mem_of_getElem? (i := 0) rfl) (.inl rfl)
  exact ⟨_, source.next (List.mem_of_getElem? (i := 1) rfl) (by decide)⟩

theorem idle_not_route (path : List Operation) : ¬ Route root.occurrences path idle := by
  have shut : ∀ o, o ∈ root.occurrences → Enters o → o.id ≠ idle.id := by decide
  have alone : ∀ p, p ∈ root.occurrences → ∀ o, o ∈ root.occurrences → p.id ≠ idle.id →
      Hands p o → o.id ≠ idle.id := by decide
  have apart : ∀ o, Route root.occurrences path o → o.id ≠ idle.id := by
    intro o route
    induction route with
    | start member enters => exact shut _ member enters
    | next route member hands ih => exact alone _ route.member _ member ih hands
  exact fun route => apart idle route rfl

theorem sensitivities_eq_max_routes_root :
    (root.occurrences.map (·.id)).Nodup ∧
      ∃ states, sensitivities root = .ok states ∧ states.find? .any = some (some 1) ∧
        (∃ a, states.find? (.result 1 0) = some (some a) ∧
          IsGreatest (Amounts root.occurrences grouped) a.toNat) ∧
        (states.find? (.result 5 0) = none ∨ states.find? (.result 5 0) = some none) ∧
          states.find? (.result 4 0) = some (some (UInt64.ofNat (UInt64.size - 1))) := by
  have distinct : (root.occurrences.map (·.id)).Nodup := by decide
  obtain ⟨states, returned, outside, outputs, loops⟩ := sensitivities_eq_max_routes root distinct
  obtain ⟨path, route⟩ := grouped_route
  have mem : grouped ∈ root.occurrences ∧ filtered ∈ root.occurrences ∧
      outer ∈ root.occurrences ∧ inner ∈ root.occurrences ∧ idle ∈ root.occurrences :=
    ⟨List.mem_of_getElem? (i := 1) rfl, List.mem_of_getElem? (i := 2) rfl,
      List.mem_of_getElem? (i := 3) rfl, List.mem_of_getElem? (i := 4) rfl,
      List.mem_of_getElem? (i := 5) rfl⟩
  have forth : Next root.occurrences grouped filtered := ⟨mem.2.1, by decide⟩
  have back : Next root.occurrences filtered grouped := ⟨mem.1, by decide⟩
  have away : Next root.occurrences filtered inner := ⟨mem.2.2.2.1, by decide⟩
  have turn : Relation.TransGen (Next root.occurrences) grouped grouped :=
    .tail (.single forth) back
  refine ⟨distinct, states, returned, outside outer mem.2.2.1 .any (by decide) rfl, ?_, ?_, ?_⟩
  · exact (outputs grouped mem.1 0 (by decide)).1 ⟨path, route⟩
  · exact (outputs idle mem.2.2.2.2 0 (by decide)).2 idle_not_route
  · exact loops path grouped grouped route turn rfl turn inner (.tail (.single forth) away) 0
      (by decide)

end Regrouping

end Privacy

end TagFlow
