import Mathlib.Data.Fintype.BigOperators
import Mathlib.Data.Fintype.Option
import Mathlib.Data.Fintype.Pigeonhole
import Mathlib.Data.Fintype.Powerset
import Mathlib.Logic.Function.Iterate
import TagFlow.Proofs.Policy.Guards

/-! # Pass after pass

A pass lets every operation write its own marks, one after another, so the marks after a pass
are a function of the marks before it. The marks have only so many states: each operation has
an entry or none, and an entry is two sets of the book's tags. After more passes than states
some state has come back, and from then on the passes go round for ever. So if the marks ever
satisfy all equations, they do so within the pass limit.
-/

namespace TagFlow

namespace Rescan

variable {book : RuleBook} {m : Module} {marks x y : MarkMap} {o : Operation}

/-! ## The marks after a pass -/

/-- The marks after an operation has written its own. -/
def write (book : RuleBook) (marks : MarkMap) (o : Operation) : MarkMap :=
  match transfer book marks o with
  | .ok (some new) => marks.insert (.default o.id) new
  | _ => marks

theorem write_of_transfer {new : Marks} (h : transfer book marks o = .ok (some new)) :
    write book marks o = marks.insert (.default o.id) new := by
  simp only [write, h]

theorem find?_write_of_ne {v : Value} (h : v ≠ .default o.id) :
    (write book marks o).find? v = marks.find? v := by
  unfold write
  split
  · exact OrdMap.find?_insert_of_ne _ _ h
  · rfl

theorem visit_eq_write {s s' : MarkMap × Bool} (h : visit book s o = .ok s') :
    s'.1 = write book s.1 o := by
  rcases visit_cases h with ⟨rfl, unmarked | ⟨new, ht, hf⟩⟩ | ⟨new, ht, rfl⟩
  · simp only [write, unmarked]
  · rw [write_of_transfer ht]
    apply OrdMap.ext
    intro v
    by_cases hv : v = .default o.id
    · rw [hv, OrdMap.find?_insert_self, hf]
    · rw [OrdMap.find?_insert_of_ne _ _ hv]
  · rw [write_of_transfer ht]

/-- The marks after a pass. -/
def rescan (book : RuleBook) (m : Module) (marks : MarkMap) : MarkMap :=
  m.operations.foldl (write book) marks

theorem pass_eq_rescan {s : MarkMap × Bool} (h : pass book m marks = .ok s) :
    s.1 = rescan book m marks := by
  apply Outcome.foldlM_keeps
    (fun done (s : MarkMap × Bool) => s.1 = done.foldl (write book) marks) rfl _ h
  intro done o s s' _ ih hv
  rw [List.foldl_concat, ← ih]
  exact visit_eq_write hv

/-- The marks after a number of passes, whether or not these have settled before. -/
def after (book : RuleBook) (m : Module) : Nat → Except Fault MarkMap
  | 0 => .ok .empty
  | k + 1 => do return (← pass book m (← after book m k)).1

theorem after_eq (accepts : ∀ o, o ∈ m.operations → Accepts book o) (k : Nat) :
    after book m k = .ok ((rescan book m)^[k] .empty) := by
  induction k with
  | zero => rfl
  | succ k ih =>
      obtain ⟨s, hs⟩ := pass_total accepts ((rescan book m)^[k] .empty)
      rw [after, ih, Function.iterate_succ_apply', ← pass_eq_rescan hs]
      exact Outcome.bind_eq_ok.mpr ⟨_, rfl, Outcome.bind_eq_ok.mpr ⟨s, hs, rfl⟩⟩

/-! ## Passes that change something -/

theorem pass_of_solved (solved : ∀ o, o ∈ m.operations → Solved book marks o) :
    pass book m marks = .ok (marks, false) := by
  unfold pass
  generalize m.operations = ops at solved
  induction ops with
  | nil => rfl
  | cons o rest ih =>
      rw [List.foldlM_cons, visit_of_solved (solved o List.mem_cons_self)]
      exact ih fun p hp => solved p (List.mem_cons_of_mem o hp)

theorem run_total (accepts : ∀ o, o ∈ m.operations → Accepts book o) (limit : Nat)
    (f : Fixpoint) : ∃ r, run book m limit f = .ok r := by
  induction limit generalizing f with
  | zero => exact ⟨none, rfl⟩
  | succ limit ih =>
      obtain ⟨⟨marks, changed⟩, hp⟩ := pass_total accepts f.marks
      rw [run, hp]
      cases changed with
      | false => exact ⟨_, rfl⟩
      | true => exact ih ⟨marks, f.passes + 1⟩

/-- A run that is stopped by its limit has seen a change in every pass. -/
theorem changed_of_run {limit : Nat} {f : Fixpoint} (h : run book m limit f = .ok none)
    {k : Nat} (hk : k < limit) :
    ∃ marks, pass book m ((rescan book m)^[k] f.marks) = .ok (marks, true) := by
  induction limit generalizing f k with
  | zero => omega
  | succ limit ih =>
      obtain ⟨⟨marks, changed⟩, hp, h⟩ := Outcome.bind_eq_ok.mp h
      cases changed with
      | false => cases h
      | true =>
          cases k with
          | zero => exact ⟨marks, hp⟩
          | succ k =>
              have hmarks : marks = rescan book m f.marks := pass_eq_rescan hp
              obtain ⟨next, hnext⟩ := ih h (Nat.lt_of_succ_lt_succ hk)
              rw [Function.iterate_succ_apply, ← hmarks]
              exact ⟨next, hnext⟩

/-! ## How many states there are -/

def Numbered (book : RuleBook) (marks : MarkMap) : Prop :=
  ∀ v new, marks.find? v = some new →
    (∀ tag, tag ∈ new.secrecy → tag < book.tagNames.length) ∧
      ∀ tag, tag ∈ new.integrity → tag < book.tagNames.length

theorem Alters.lt_length {rules : List PolicyRule} (holds : book.Holds rules)
    {action : RuleAction} {tag : Tag} (h : Alters book marks o action tag) :
    tag < book.tagNames.length := by
  obtain ⟨rule, -, -, -, number⟩ := h.exists_rule holds
  exact (List.getElem?_eq_some_iff.mp (TagNames.getElem?_of_number? number)).1

theorem Numbered.insert {rules : List PolicyRule} (holds : book.Holds rules)
    (h : Numbered book marks) {new : Marks} (ht : transfer book marks o = .ok (some new)) :
    Numbered book (marks.insert (.default o.id) new) :=
  Confined.insert h ht (fun _ _ alters => alters.lt_length holds)
    fun _ _ alters => alters.lt_length holds

theorem Numbered.empty : Numbered book .empty := Confined.empty

theorem rescan_keeps (Inv : MarkMap → Prop)
    (step : ∀ o marks new, o ∈ m.operations → Inv marks →
      transfer book marks o = .ok (some new) → Inv (marks.insert (.default o.id) new))
    (start : Inv marks) : Inv (rescan book m marks) := by
  unfold rescan
  apply List.foldlRecOn m.operations (write book) start
  intro marks inv o ho
  unfold write
  split
  · exact step o marks _ ho inv ‹_›
  · exact inv

/-- What every write keeps holds after any number of passes. -/
theorem iterate_keeps (Inv : MarkMap → Prop) (start : Inv .empty)
    (step : ∀ o marks new, o ∈ m.operations → Inv marks →
      transfer book marks o = .ok (some new) → Inv (marks.insert (.default o.id) new)) (k : Nat) :
    Inv ((rescan book m)^[k] .empty) :=
  Function.Iterate.rec Inv start (fun _ => rescan_keeps Inv step) k

theorem eq_of_iff_below {count : Nat} {a b : TagSet} (ha : ∀ tag, tag ∈ a → tag < count)
    (hb : ∀ tag, tag ∈ b → tag < count) (h : ∀ tag, tag < count → (tag ∈ a ↔ tag ∈ b)) : a = b := by
  apply OrdSet.ext
  intro tag
  by_cases hlt : tag < count
  · exact h tag hlt
  · exact iff_of_false (fun hmem => hlt (ha tag hmem)) fun hmem => hlt (hb tag hmem)

/-- Marks of the module's operations are given by their entries. -/
theorem Placed.ext (hx : Placed m x) (hy : Placed m y)
    (own : ∀ o, o ∈ m.operations → x.find? (.default o.id) = y.find? (.default o.id)) : x = y := by
  apply OrdMap.ext
  intro v
  by_cases inside : ∃ o, o ∈ m.operations ∧ v = .default o.id
  · obtain ⟨o, ho, rfl⟩ := inside
    exact own o ho
  · have outside : ∀ marks, Placed m marks → marks.find? v = none := by
      intro marks placed
      rw [Option.eq_none_iff_forall_ne_some]
      intro new hf
      obtain ⟨o, ho, -, hv⟩ := placed v new hf
      exact inside ⟨o, ho, hv⟩
    rw [outside x hx, outside y hy]

def tagsBelow (count : Nat) (tags : TagSet) : Finset (Fin count) :=
  Finset.univ.filter fun tag => tag.1 ∈ tags

theorem eq_of_tagsBelow {count : Nat} {a b : TagSet} (ha : ∀ tag, tag ∈ a → tag < count)
    (hb : ∀ tag, tag ∈ b → tag < count) (h : tagsBelow count a = tagsBelow count b) : a = b := by
  apply eq_of_iff_below ha hb
  intro tag hlt
  have hmem : (⟨tag, hlt⟩ : Fin count) ∈ tagsBelow count a ↔ ⟨tag, hlt⟩ ∈ tagsBelow count b := by
    rw [h]
  simpa [tagsBelow] using hmem

/-- What there is for each operation: no marks, or two sets of tags of the book. -/
abbrev Shape (book : RuleBook) (m : Module) : Type :=
  Fin m.operations.length →
    Option (Finset (Fin book.tagNames.length) × Finset (Fin book.tagNames.length))

def shape (book : RuleBook) (m : Module) (marks : MarkMap) : Shape book m := fun i =>
  (marks.find? (.default (m.operations.get i).id)).map fun a =>
    (tagsBelow _ a.secrecy, tagsBelow _ a.integrity)

theorem card_shape (book : RuleBook) (m : Module) :
    Fintype.card (Shape book m) < passLimit book m := by
  have square : ∀ n : Nat, 2 ^ n * 2 ^ n = 4 ^ n := by
    intro n
    rw [← Nat.mul_pow]
  have hcard : Fintype.card (Shape book m) =
      (4 ^ book.tagNames.length + 1) ^ m.operations.length := by
    simp only [Shape, Fintype.card_fun, Fintype.card_option, Fintype.card_prod,
      Fintype.card_finset, Fintype.card_fin, square]
  rw [hcard]
  exact Nat.lt_succ_self _

theorem eq_of_shape (hx : Placed m x) (hx' : Numbered book x) (hy : Placed m y)
    (hy' : Numbered book y) (h : shape book m x = shape book m y) : x = y := by
  apply hx.ext hy
  intro o ho
  obtain ⟨i, hi⟩ := List.mem_iff_get.mp ho
  have hshape := congrFun h i
  simp only [shape, hi] at hshape
  cases ha : x.find? (.default o.id) with
  | none =>
      rw [ha, Option.map_none, eq_comm, Option.map_eq_none_iff] at hshape
      exact hshape.symm
  | some a =>
      rw [ha, Option.map_some, eq_comm, Option.map_eq_some_iff] at hshape
      obtain ⟨b, hb, hab⟩ := hshape
      rw [Prod.mk.injEq] at hab
      have hsecrecy := eq_of_tagsBelow (hy' _ b hb).1 (hx' _ a ha).1 hab.1
      have hintegrity := eq_of_tagsBelow (hy' _ b hb).2 (hx' _ a ha).2 hab.2
      rw [hb, Option.some.injEq]
      exact (Marks.mk.injEq _ _ _ _).mpr ⟨hsecrecy.symm, hintegrity.symm⟩

/-! ## The pass limit is enough -/

/-- Some state within the pass limit comes back. -/
theorem exists_return {rules : List PolicyRule} (holds : book.Holds rules) (m : Module) :
    ∃ k period, k < passLimit book m ∧ 0 < period ∧
      (rescan book m)^[period] ((rescan book m)^[k] .empty) = (rescan book m)^[k] .empty := by
  obtain ⟨i, j, hne, hshape⟩ := Fintype.exists_ne_map_eq_of_card_lt
    (fun i : Fin (passLimit book m) => shape book m ((rescan book m)^[i.1] .empty))
    (by rw [Fintype.card_fin]; exact card_shape book m)
  have placed : ∀ k, Placed m ((rescan book m)^[k] .empty) :=
    iterate_keeps (Placed m) Placed.empty fun _ _ _ ho placed ht => placed.insert ho ht
  have numbered : ∀ k, Numbered book ((rescan book m)^[k] .empty) :=
    iterate_keeps (Numbered book) Numbered.empty fun _ _ _ _ numbered ht =>
      numbered.insert holds ht
  have same : (rescan book m)^[i.1] .empty = (rescan book m)^[j.1] .empty :=
    eq_of_shape (placed i) (numbered i) (placed j) (numbered j) hshape
  rcases Nat.lt_or_gt_of_ne (Fin.val_ne_of_ne hne) with hlt | hlt
  · refine ⟨i, j - i, i.2, by omega, ?_⟩
    rw [← Function.iterate_add_apply, Nat.sub_add_cancel hlt.le, same]
  · refine ⟨j, i - j, j.2, by omega, ?_⟩
    rw [← Function.iterate_add_apply, Nat.sub_add_cancel hlt.le, same]

/-- A state that comes back is the one where the steps come to rest, if they do. -/
theorem iterate_eq_of_return {α : Type} {step : α → α} {start : α} {k period rest : Nat}
    (hperiod : 0 < period) (back : step^[period] (step^[k] start) = step^[k] start)
    (fixed : step (step^[rest] start) = step^[rest] start) :
    step^[k] start = step^[rest] start := by
  have long : rest ≤ period * rest + k := by
    have := Nat.le_mul_of_pos_left rest hperiod
    omega
  calc
    step^[k] start = step^[period * rest] (step^[k] start) := by
      rw [Function.iterate_mul]
      exact (Function.iterate_fixed back rest).symm
    _ = step^[period * rest + k - rest] (step^[rest] start) := by
      rw [← Function.iterate_add_apply, ← Function.iterate_add_apply, Nat.sub_add_cancel long]
    _ = step^[rest] start := Function.iterate_fixed fixed _

/-- If the equations are ever all satisfied, the passes settle within the limit: otherwise each
of them has changed something, also the one from the state that came back. -/
theorem fixpoint_of_solved {rules : List PolicyRule} (hbook : RuleBook.ofRules rules = .ok book)
    (accepts : ∀ o, o ∈ m.operations → Accepts book o) {k : Nat}
    (solved : ∀ o, o ∈ m.operations → Solved book ((rescan book m)^[k] .empty) o) :
    ∃ f, fixpoint book m = .ok (some f) := by
  obtain ⟨r, hr⟩ := run_total accepts (passLimit book m) {}
  cases r with
  | some f => exact ⟨f, hr⟩
  | none =>
      have still := pass_of_solved solved
      obtain ⟨i, period, hi, hperiod, back⟩ := exists_return (RuleBook.holds_ofRules hbook) m
      obtain ⟨next, changed⟩ := changed_of_run hr hi
      have same := iterate_eq_of_return hperiod back (pass_eq_rescan still).symm
      change pass book m ((rescan book m)^[i] .empty) = _ at changed
      rw [same, still] at changed
      cases changed

end Rescan

end TagFlow
