import Mathlib.Data.List.Range
import Mathlib.Order.Bounds.Basic
import Mathlib.Order.Lattice
import TagFlow.Proofs.Label.Below
import TagFlow.Proofs.Ordered.Distinct

/-! # Labels form a semilattice

Joining orders the labels: an unknown label is below all, and of two known ones the lower has
less secrecy and more integrity. So the label without tags is not the least known one; above it
are only labels without integrity. A label rises by becoming known, by gaining a secrecy tag or
by losing an integrity tag, which bounds the labels in a chain over a set of tags, and a chain
that takes one tag at a time meets the bound. Whatever changes a single label keeps the order.
-/

namespace TagFlow

namespace Label

/-! ## Order -/

instance : Max Label := ⟨join⟩

instance : SemilatticeSup Label :=
  SemilatticeSup.mk' join_comm join_assoc join_self

theorem le_iff_below {l m : Label} : l ≤ m ↔ l.Below m := by
  rw [← join_eq_iff_below, join_comm m l]
  exact Iff.rfl

instance (l m : Label) : Decidable (l ≤ m) :=
  inferInstanceAs (Decidable (l.join m = m))

instance : DecidableLT Label := decidableLTOfDecidableLE

theorem unknown_lt_known (s i : TagSet) : unknown < known s i := by
  refine lt_of_le_of_ne ?_ (by simp)
  rw [le_iff_below]
  trivial

theorem known_le_known_iff {s i s' i' : TagSet} :
    known s i ≤ known s' i' ↔ (∀ t, t ∈ s → t ∈ s') ∧ ∀ t, t ∈ i' → t ∈ i :=
  le_iff_below

/-- Without tags a label is above the trusted one, and apart from the one that is also secret. -/
example : ofTags [] [1] < untagged ∧ ¬ untagged ≤ ofTags [2] [1] ∧ ¬ ofTags [2] [1] ≤ untagged := by
  decide

/-- Both labels are unknown, or both are known and have the same tags. -/
def SameTags : Label → Label → Prop
  | unknown, unknown => True
  | known s i, known s' i' => (∀ t, t ∈ s ↔ t ∈ s') ∧ ∀ t, t ∈ i ↔ t ∈ i'
  | unknown, known _ _ => False
  | known _ _, unknown => False

theorem eq_iff_sameTags {l m : Label} : l = m ↔ l.SameTags m := by
  cases l with
  | unknown => cases m <;> simp [SameTags]
  | known s i =>
      cases m with
      | unknown => simp [SameTags]
      | known s' i' =>
          rw [known.injEq]
          constructor
          · rintro ⟨rfl, rfl⟩
            exact ⟨fun _ => Iff.rfl, fun _ => Iff.rfl⟩
          · rintro ⟨hs, hi⟩
            exact ⟨OrdSet.ext hs, OrdSet.ext hi⟩

/-! ## Chains -/

/-- The labels rise from each to the next, and have no tags beyond the set. -/
structure Climbs (tags : TagSet) (chain : List Label) : Prop where
  within : ∀ l, l ∈ chain → l.Within tags.toList
  rising : chain.IsChain (· < ·)

theorem rank_lt_of_lt {tags : List Tag} {l m : Label} (hl : l.Within tags) (h : l < m) :
    l.rank tags < m.rank tags := by
  have joined : l.join m = m := h.le
  have moved : l.join m ≠ l := by
    rw [joined]
    exact h.ne'
  have hlt := rank_lt_of_join_ne hl moved
  rw [joined] at hlt
  exact hlt

/-- Each label of a chain stands above the one before it, so the first leaves room for all. -/
theorem Climbs.length_add_rank_le {tags : TagSet} {l : Label} {rest : List Label}
    (h : Climbs tags (l :: rest)) : rest.length + l.rank tags.toList ≤ 2 * tags.size + 1 := by
  have hl : l.Within tags.toList := h.within l List.mem_cons_self
  induction rest generalizing l with
  | nil =>
      have := rank_le hl
      simp only [List.length_nil, OrdSet.size]
      omega
  | cons m rest ih =>
      obtain ⟨hlt, rising⟩ := List.isChain_cons_cons.mp h.rising
      have next : Climbs tags (m :: rest) :=
        ⟨fun k hk => h.within k (List.mem_cons_of_mem l hk), rising⟩
      have hrank := rank_lt_of_lt hl hlt
      have hrest := ih next (next.within m List.mem_cons_self)
      simp only [List.length_cons]
      omega

theorem Climbs.length_le {tags : TagSet} {chain : List Label} (h : Climbs tags chain) :
    chain.length ≤ 2 * tags.size + 2 := by
  cases chain with
  | nil => exact Nat.zero_le _
  | cons l rest =>
      have := h.length_add_rank_le
      simp only [List.length_cons]
      omega

/-- The label after `k` steps up from all integrity and no secrecy: each of the first steps makes
one more tag secrecy, and each of those after them takes a tag from the integrity. -/
def level (tags : TagSet) (k : Nat) : Label :=
  known (.ofList (tags.toList.take k)) (.ofList (tags.toList.drop (k - tags.size)))

theorem level_within (tags : TagSet) (k : Nat) : (level tags k).Within tags.toList := by
  constructor
  · intro t ht
    exact List.mem_of_mem_take (OrdSet.mem_ofList.mp ht)
  · intro t ht
    exact List.mem_of_mem_drop (OrdSet.mem_ofList.mp ht)

theorem level_le_succ (tags : TagSet) (k : Nat) : level tags k ≤ level tags (k + 1) := by
  rw [level, level, known_le_known_iff]
  constructor
  · intro t ht
    rw [OrdSet.mem_ofList] at ht ⊢
    exact List.take_subset_take_left _ (Nat.le_succ k) ht
  · intro t ht
    rw [OrdSet.mem_ofList] at ht ⊢
    exact List.drop_subset_drop_left _ (by omega) ht

theorem level_lt_succ {tags : TagSet} {k : Nat} (hk : k < 2 * tags.size) :
    level tags k < level tags (k + 1) := by
  refine lt_of_le_not_ge (level_le_succ tags k) ?_
  rw [level, level, known_le_known_iff]
  rintro ⟨hs, hi⟩
  have distinct := tags.nodup_toList
  by_cases hlow : k < tags.toList.length
  · have back := hs tags.toList[k]
    rw [OrdSet.mem_ofList, OrdSet.mem_ofList, Positions.getElem_mem_take_iff distinct hlow,
      Positions.getElem_mem_take_iff distinct hlow] at back
    omega
  · have hleft : k - tags.size < tags.toList.length := by
      simp only [OrdSet.size] at hk ⊢
      omega
    have kept := hi tags.toList[k - tags.size]
    rw [OrdSet.mem_ofList, OrdSet.mem_ofList, Positions.getElem_mem_drop_iff distinct hleft,
      Positions.getElem_mem_drop_iff distinct hleft] at kept
    simp only [OrdSet.size] at kept
    omega

/-- From unknown through all levels. -/
theorem exists_climbs (tags : TagSet) :
    ∃ chain, Climbs tags chain ∧ chain.length = 2 * tags.size + 2 := by
  refine ⟨unknown :: (List.range (2 * tags.size + 1)).map (level tags), ⟨?_, ?_⟩, by simp⟩
  · intro l hl
    rcases List.mem_cons.mp hl with rfl | hl
    · trivial
    · obtain ⟨k, -, rfl⟩ := List.mem_map.mp hl
      exact level_within tags k
  · refine List.IsChain.cons ?_ ?_
    · rw [List.isChain_map, List.isChain_range_succ]
      intro k hk
      exact level_lt_succ hk
    · intro l hl
      obtain ⟨k, -, rfl⟩ := List.mem_map.mp (List.mem_of_mem_head? hl)
      exact unknown_lt_known _ _

/-! ## Changes of one label -/

/-- What changes a single label. -/
inductive Modifies : (Label → Label) → Prop
  | addSecrecy (tag : Tag) : Modifies (addSecrecy tag)
  | removeSecrecy (tag : Tag) : Modifies (removeSecrecy tag)
  | addIntegrity (tag : Tag) : Modifies (addIntegrity tag)
  | removeIntegrity (tag : Tag) : Modifies (removeIntegrity tag)
  | withIntegrity (tags : TagSet) : Modifies (withIntegrity tags)

theorem Modifies.unknown_eq {f : Label → Label} (h : Modifies f) : f unknown = unknown := by
  cases h <;> rfl

theorem Below.withIntegrity {l m : Label} (h : l.Below m) (tags : TagSet) :
    (l.withIntegrity tags).Below (m.withIntegrity tags) := by
  cases l with
  | unknown => trivial
  | known s i =>
      obtain ⟨s', i', rfl, hs, -⟩ := h.of_known
      exact ⟨hs, fun _ ht => ht⟩

theorem Modifies.monotone {f : Label → Label} (h : Modifies f) : Monotone f := by
  intro l m hle
  rw [le_iff_below] at hle ⊢
  cases h with
  | addSecrecy tag => exact hle.change .addSecrecy tag
  | removeSecrecy tag => exact hle.change .removeSecrecy tag
  | addIntegrity tag => exact hle.change .addIntegrity tag
  | removeIntegrity tag => exact hle.change .removeIntegrity tag
  | withIntegrity tags => exact hle.withIntegrity tags

/-! ## All laws -/

/-- Joining labels is associative, commutative and idempotent, an unknown label adds nothing to
it, and it gives the least label above both in the order by secrecy and integrity. Labels are
compared by their tags. A strictly increasing chain over `n` tags has at most `2 * n + 2` labels,
and one has as many. What changes a single label leaves an unknown one unknown and keeps the
order. -/
theorem join_semilattice_finite_height :
    (∀ l m n : Label, (l.join m).join n = l.join (m.join n)) ∧
      (∀ l m : Label, l.join m = m.join l) ∧
      (∀ l : Label, l.join l = l ∧ unknown.join l = l ∧ l.join unknown = l) ∧
      (∀ l m : Label, l ≤ m ↔ l.Below m) ∧
      (∀ l m : Label, IsLUB {l, m} (l.join m)) ∧
      (∀ l m : Label, decide (l = m) = true ↔ l.SameTags m) ∧
      (∀ tags chain, Climbs tags chain → chain.length ≤ 2 * tags.size + 2) ∧
      (∀ tags, ∃ chain, Climbs tags chain ∧ chain.length = 2 * tags.size + 2) ∧
      ∀ f, Modifies f → f unknown = unknown ∧ Monotone f := by
  refine ⟨join_assoc, join_comm, fun l => ⟨join_self l, unknown_join l, join_unknown l⟩,
    fun _ _ => le_iff_below, fun _ _ => isLUB_pair, ?_, fun _ _ h => h.length_le, exists_climbs,
    fun _ h => ⟨h.unknown_eq, h.monotone⟩⟩
  intro l m
  rw [decide_eq_true_iff]
  exact eq_iff_sameTags

end Label

end TagFlow
