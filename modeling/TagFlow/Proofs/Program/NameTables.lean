import Mathlib.Data.List.Induction
import TagFlow.Program.Names
import TagFlow.Proofs.Ordered.Distinct

/-! # What name tables answer

A table is asked about one thing after the other. Whatever it was asked, the numbers of a kind
count the things of that kind in the order they were first asked about, and a thing keeps its
number. So what only asks a table for numbers, and is done once more with the table that came of
it, gets the same numbers and leaves the table as it is.
-/

namespace TagFlow

namespace Names

open Positions

/-! ## One list of things -/

section

variable {α β : Type} [DecidableEq α] [DecidableEq β] {known : List α} {a : α}

theorem number_of_findIdx? {n : Nat} (h : known.findIdx? (· = a) = some n) :
    number known a = (n, known) := by
  rw [number, h]

theorem number_of_not_mem (h : a ∉ known) : number known a = (known.length, known ++ [a]) := by
  rw [number, findIdx?_eq_none_iff.mpr h]

theorem number_snd (known : List α) (a : α) :
    (number known a).2 = if a ∈ known then known else known ++ [a] := by
  cases h : known.findIdx? (· = a) with
  | some n =>
      have mem : a ∈ known := List.mem_of_getElem? (getElem?_of_findIdx? h)
      rw [number_of_findIdx? h, if_pos mem]
  | none =>
      have new : a ∉ known := findIdx?_eq_none_iff.mp h
      rw [number_of_not_mem new, if_neg new]

theorem findIdx?_number (known : List α) (a : α) :
    (number known a).2.findIdx? (· = a) = some (number known a).1 := by
  cases h : known.findIdx? (· = a) with
  | some n =>
      rw [number_of_findIdx? h]
      exact h
  | none =>
      have new : a ∉ known := findIdx?_eq_none_iff.mp h
      rw [number_of_not_mem new]
      exact findIdx?_concat_self new

theorem findIdx?_number_of_some {b : α} {n : Nat} (h : known.findIdx? (· = b) = some n) :
    (number known a).2.findIdx? (· = b) = some n := by
  rw [number_snd]
  split
  · exact h
  · exact findIdx?_append_of_some h [a]

theorem nodup_number (distinct : known.Nodup) : (number known a).2.Nodup := by
  rw [number_snd]
  split
  · exact distinct
  · next new =>
      rw [← List.concat_eq_append]
      exact distinct.concat new

/-- One to one, other things get the same numbers. -/
theorem number_map {f : α → β} (injective : Function.Injective f) (known : List α) (a : α) :
    number (known.map f) (f a) = ((number known a).1, (number known a).2.map f) := by
  have same : (known.map f).findIdx? (· = f a) = known.findIdx? (· = a) := by
    simp [List.findIdx?_map, Function.comp_def, injective.eq_iff]
  cases h : known.findIdx? (· = a) with
  | some n =>
      rw [number_of_findIdx? h, number_of_findIdx? (same.trans h)]
  | none => simp [number, same, h]

end

/-! ## Questions -/

end Names

inductive Kind where
  | module
  | block
  | value
  deriving DecidableEq

/-- A thing that a name table is asked about. -/
inductive Request where
  | module (id : ModuleId)
  | block (id : BlockId)
  | value (value : Value)
  deriving DecidableEq

def Request.kind : Request → Kind
  | module _ => .module
  | block _ => .block
  | value _ => .value

namespace Names

open Positions

def ask (names : Names) : Request → Nat × Names
  | .module id => names.module id
  | .block id => names.block id
  | .value v => names.value v

/-- The table after it was asked about the things in order. -/
def after (names : Names) (requests : List Request) : Names :=
  requests.foldl (fun names r => (names.ask r).2) names

/-- The things of a kind in a table. -/
def known (names : Names) : Kind → List Request
  | .module => names.modules.map .module
  | .block => names.blocks.map .block
  | .value => names.values.map .value

/-- The number of a thing in a table, without asking for it. -/
def number? (names : Names) (r : Request) : Option Nat :=
  (names.known r.kind).findIdx? (· = r)

theorem ext_known {names names' : Names} (h : ∀ kind, names.known kind = names'.known kind) :
    names = names' := by
  have modules := List.map_injective_iff.mpr (fun _ _ => Request.module.inj) (h .module)
  have blocks := List.map_injective_iff.mpr (fun _ _ => Request.block.inj) (h .block)
  have values := List.map_injective_iff.mpr (fun _ _ => Request.value.inj) (h .value)
  cases names
  cases names'
  simp_all

/-- Every kind is numbered in one and the same way. -/
theorem ask_eq_number (names : Names) (r : Request) :
    ((names.ask r).1, (names.ask r).2.known r.kind) = number (names.known r.kind) r := by
  cases r with
  | module id => exact (number_map (fun _ _ => Request.module.inj) ..).symm
  | block id => exact (number_map (fun _ _ => Request.block.inj) ..).symm
  | value v => exact (number_map (fun _ _ => Request.value.inj) ..).symm

theorem ask_fst (names : Names) (r : Request) :
    (names.ask r).1 = (number (names.known r.kind) r).1 :=
  congrArg Prod.fst (names.ask_eq_number r)

theorem known_ask (names : Names) (r : Request) :
    (names.ask r).2.known r.kind = (number (names.known r.kind) r).2 :=
  congrArg Prod.snd (names.ask_eq_number r)

theorem known_ask_of_ne {names : Names} {r : Request} {kind : Kind} (h : kind ≠ r.kind) :
    (names.ask r).2.known kind = names.known kind := by
  cases r <;> cases kind <;> try rfl
  all_goals exact absurd rfl h

/-! ## One question -/

theorem eq_of_number? {names : Names} {r s : Request} {n : Nat} (kind : r.kind = s.kind)
    (hr : names.number? r = some n) (hs : names.number? s = some n) : r = s := by
  rw [number?, kind] at hr
  have left := getElem?_of_findIdx? hr
  have right := getElem?_of_findIdx? hs
  exact Option.some.inj (left.symm.trans right)

theorem number?_ask (names : Names) (r : Request) :
    (names.ask r).2.number? r = some (names.ask r).1 := by
  rw [number?, known_ask, ask_fst]
  exact findIdx?_number _ r

/-- Asking for a number that is given answers it and changes nothing. -/
theorem ask_of_number? {names : Names} {r : Request} {n : Nat} (h : names.number? r = some n) :
    names.ask r = (n, names) := by
  have given := number_of_findIdx? h
  apply Prod.ext
  · rw [ask_fst, given]
  · apply ext_known
    intro kind
    by_cases hk : kind = r.kind
    · rw [hk, known_ask, given]
    · rw [known_ask_of_ne hk]

theorem number?_ask_of_some {names : Names} {r : Request} {n : Nat}
    (h : names.number? r = some n) (s : Request) : (names.ask s).2.number? r = some n := by
  by_cases hk : r.kind = s.kind
  · rw [number?, hk] at h ⊢
    rw [known_ask]
    exact findIdx?_number_of_some h
  · rw [number?, known_ask_of_ne hk]
    exact h

theorem nodup_known_ask {names : Names} (distinct : ∀ kind, (names.known kind).Nodup)
    (r : Request) (kind : Kind) : ((names.ask r).2.known kind).Nodup := by
  by_cases hk : kind = r.kind
  · rw [hk, known_ask]
    exact nodup_number (distinct r.kind)
  · rw [known_ask_of_ne hk]
    exact distinct kind

/-! ## Any number of questions -/

theorem after_append (names : Names) (requests more : List Request) :
    names.after (requests ++ more) = (names.after requests).after more :=
  List.foldl_append

theorem after_concat (names : Names) (requests : List Request) (r : Request) :
    names.after (requests ++ [r]) = ((names.after requests).ask r).2 :=
  names.after_append requests [r]

/-- A number never changes once it is given. -/
theorem number?_after {names : Names} {r : Request} {n : Nat} (h : names.number? r = some n)
    (requests : List Request) : (names.after requests).number? r = some n := by
  induction requests using List.reverseRecOn with
  | nil => exact h
  | append_singleton requests s ih =>
      rw [after_concat]
      exact number?_ask_of_some ih s

/-- Asking again answers the same, whatever was asked in between. -/
theorem ask_after_ask (names : Names) (r : Request) (requests : List Request) :
    ((names.ask r).2.after requests).ask r =
      ((names.ask r).1, (names.ask r).2.after requests) :=
  ask_of_number? (number?_after (names.number?_ask r) requests)

theorem nodup_known_after (requests : List Request) (kind : Kind) :
    ((after {} requests).known kind).Nodup := by
  induction requests using List.reverseRecOn generalizing kind with
  | nil => cases kind <;> exact List.nodup_nil
  | append_singleton requests r ih =>
      rw [after_concat]
      exact nodup_known_ask ih r kind

/-- A table holds the things that it was asked about, in the order of the first questions. -/
theorem known_after (requests : List Request) (kind : Kind) :
    (after {} requests).known kind = (requests.filter (·.kind = kind)).eraseDups := by
  induction requests using List.reverseRecOn with
  | nil => cases kind <;> rfl
  | append_singleton requests r ih =>
      rw [after_concat, List.filter_append]
      by_cases hk : kind = r.kind
      · subst hk
        rw [known_ask, ih, number_snd, List.eraseDups_append]
        by_cases asked : r ∈ requests <;> simp [List.removeAll, List.eraseDups_cons, asked]
      · rw [known_ask_of_ne hk, ih]
        simp [Ne.symm hk]

/-- The numbers of a kind are the positions in the order of the first questions. -/
theorem number?_after_eq_some_iff {requests : List Request} {r : Request} {n : Nat} :
    (after {} requests).number? r = some n ↔
      (requests.filter (·.kind = r.kind)).eraseDups[n]? = some r := by
  rw [number?, findIdx?_eq_some_iff (nodup_known_after requests r.kind), known_after]

end Names

end TagFlow
