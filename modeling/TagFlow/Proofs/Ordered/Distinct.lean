import Mathlib.Data.List.Nodup
import Mathlib.Data.List.Perm.Subperm
import TagFlow.Ordered.Set

/-! # Lists without repetitions

Tags, modules, blocks and values are numbered by their positions in lists that grow at the end.
What is in such a list keeps its position, what is not in it comes last, and where nothing is
repeated a position belongs to one member. An ordered set lists each member once, so a set inside
another is no larger, and a set that is as large as one around it is the same.
-/

namespace TagFlow

namespace Positions

variable {α : Type} [DecidableEq α] {l : List α} {a : α} {n : Nat}

theorem getElem?_of_findIdx? (h : l.findIdx? (· = a) = some n) : l[n]? = some a := by
  obtain ⟨hlt, he, -⟩ := List.findIdx?_eq_some_iff_getElem.mp h
  rw [List.getElem?_eq_getElem hlt]
  simpa using he

theorem findIdx?_eq_none_iff : l.findIdx? (· = a) = none ↔ a ∉ l := by
  rw [List.findIdx?_eq_none_iff]
  constructor
  · intro h ha
    simpa using h a ha
  · intro h b hb
    simpa using fun e : b = a => h (e ▸ hb)

theorem findIdx?_append_of_some (h : l.findIdx? (· = a) = some n) (more : List α) :
    (l ++ more).findIdx? (· = a) = some n := by
  rw [List.findIdx?_append, h, Option.some_or]

theorem findIdx?_concat_self (h : a ∉ l) : (l ++ [a]).findIdx? (· = a) = some l.length := by
  rw [List.findIdx?_append, findIdx?_eq_none_iff.mpr h]
  simp

/-- In a list without repetitions a member has one position. -/
theorem findIdx?_eq_some_iff (distinct : l.Nodup) :
    l.findIdx? (· = a) = some n ↔ l[n]? = some a := by
  refine ⟨getElem?_of_findIdx?, fun h => ?_⟩
  cases hn : l.findIdx? (· = a) with
  | none => exact absurd (List.mem_of_getElem? h) (findIdx?_eq_none_iff.mp hn)
  | some other =>
      have hother := getElem?_of_findIdx? hn
      have hlt : n < l.length := (List.getElem?_eq_some_iff.mp h).1
      rw [(List.getElem?_inj hlt distinct).mp (h.trans hother.symm)]

omit [DecidableEq α] in
/-- Without repetitions a member is among the first exactly when its position is. -/
theorem getElem_mem_take_iff (distinct : l.Nodup) {k : Nat} (hn : n < l.length) :
    l[n] ∈ l.take k ↔ n < k := by
  rw [List.mem_take_iff_getElem]
  constructor
  · rintro ⟨j, hj, same⟩
    have := distinct.getElem_inj_iff.mp same
    omega
  · intro hk
    exact ⟨n, by omega, rfl⟩

omit [DecidableEq α] in
theorem getElem_mem_drop_iff (distinct : l.Nodup) {k : Nat} (hn : n < l.length) :
    l[n] ∈ l.drop k ↔ k ≤ n := by
  rw [List.mem_drop_iff_getElem]
  constructor
  · rintro ⟨j, hj, same⟩
    have := distinct.getElem_inj_iff.mp same
    omega
  · intro hk
    refine ⟨n - k, by omega, ?_⟩
    simp only [Nat.add_sub_cancel' hk]

end Positions

/-! ## Sorting by keys -/

namespace Key

variable {κ : Type} [Key κ]

theorem not_lt_trans {a b c : κ} (hab : (!lt b a) = true) (hbc : (!lt c b) = true) :
    (!lt c a) = true := by
  rw [Bool.not_eq_true'] at hab hbc ⊢
  cases hbc' : lt b c with
  | false => rwa [← connected hbc' hbc]
  | true =>
      cases hca : lt c a with
      | false => rfl
      | true => rw [trans hbc' hca] at hab; exact hab

theorem not_lt_total (a b : κ) : ((!lt b a) || !lt a b) = true := by
  cases hab : lt a b with
  | false => simp
  | true => simp [asymm hab]

/-- Sorting brings a list without repetitions into its one increasing order. -/
theorem mergeSort_eq_of_perm {l sorted : List κ} (h : l.Perm sorted)
    (hsorted : sorted.Pairwise fun a b => lt a b = true) :
    l.mergeSort (fun a b => !lt b a) = sorted := by
  refine ((List.mergeSort_perm l _).trans h).eq_of_pairwise ?_
    (List.pairwise_mergeSort (fun _ _ _ => not_lt_trans) not_lt_total l)
    (hsorted.imp fun hlt => by rw [asymm hlt]; rfl)
  intro a b _ _ hab hba
  rw [Bool.not_eq_true'] at hab hba
  exact connected hba hab

end Key

/-! ## Sizes of ordered sets -/

namespace OrdSet

variable {κ : Type} [Key κ]

theorem nodup_toList (s : OrdSet κ) : s.toList.Nodup :=
  s.ordered.imp fun h => Key.ne_of_lt h

/-- A list of the members takes in what it lacks at its end. -/
theorem perm_concat [DecidableEq κ] {s : OrdSet κ} {l : List κ} (h : l.Perm s.toList) (a : κ) :
    (if a ∈ l then l else l ++ [a]).Perm (s.insert a).toList := by
  have hl : l.Nodup := h.nodup_iff.mpr s.nodup_toList
  have hmem : ∀ b, b ∈ (s.insert a).toList ↔ b = a ∨ b ∈ l := by
    intro b
    rw [← mem_def, mem_insert, mem_def, h.mem_iff]
  split
  · rename_i ha
    refine (List.perm_ext_iff_of_nodup hl (nodup_toList _)).mpr fun b => ?_
    rw [hmem, or_iff_right_of_imp fun e => e ▸ ha]
  · rename_i ha
    have hconcat : (l ++ [a]).Nodup := List.concat_eq_append ▸ hl.concat ha
    refine (List.perm_ext_iff_of_nodup hconcat (nodup_toList _)).mpr fun b => ?_
    rw [hmem, List.mem_append, List.mem_singleton, or_comm]

theorem size_le_length {s : OrdSet κ} {l : List κ} (h : ∀ a, a ∈ s → a ∈ l) :
    s.size ≤ l.length :=
  (List.subperm_of_subset s.nodup_toList fun a ha => h a ha).length_le

theorem size_le_of_subset {s t : OrdSet κ} (h : ∀ a, a ∈ s → a ∈ t) : s.size ≤ t.size :=
  size_le_length h

theorem eq_of_subset_of_size_le {s t : OrdSet κ} (h : ∀ a, a ∈ s → a ∈ t)
    (hsize : t.size ≤ s.size) : s = t := by
  have hsub := List.subperm_of_subset s.nodup_toList fun a ha => h a ha
  have hperm := hsub.perm_of_length_le hsize
  exact ext fun a => hperm.mem_iff

end OrdSet

end TagFlow
