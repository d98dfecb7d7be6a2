import Mathlib.Data.List.Induction
import Mathlib.Data.Option.Basic
import TagFlow.Ordered.Map
import TagFlow.Proofs.Outcome

/-! # Computations side by side

Two computations are related when they fail with the same fault, or both succeed and their results
are related. Steps that keep a relation keep it along a sequence and along a fold. Two maps are
related when they have the same keys, and what they hold under a key is related.
-/

namespace TagFlow

namespace Outcome

variable {ε α β γ δ σ τ : Type} {R : α → β → Prop}

inductive Related (R : α → β → Prop) : Except ε α → Except ε β → Prop where
  | ok {a : α} {b : β} (h : R a b) : Related R (.ok a) (.ok b)
  | error (e : ε) : Related R (.error e) (.error e)

theorem Related.refl (x : Except ε α) : Related Eq x x := by
  cases x with
  | ok a => exact .ok rfl
  | error e => exact .error e

theorem Related.eq {x y : Except ε α} (h : Related Eq x y) : x = y := by
  cases h with
  | ok h => rw [h]
  | error e => rfl

theorem Related.of_ok {x : Except ε α} {y : Except ε β} {a : α} {b : β} (h : Related R x y)
    (hx : x = .ok a) (hy : y = .ok b) : R a b := by
  cases h with
  | ok h =>
      cases hx
      cases hy
      exact h
  | error e => cases hx

theorem Related.mono {S : α → β → Prop} {x : Except ε α} {y : Except ε β} (h : Related R x y)
    (imp : ∀ a b, R a b → S a b) : Related S x y := by
  cases h with
  | ok h => exact .ok (imp _ _ h)
  | error e => exact .error e

theorem Related.bind {S : γ → δ → Prop} {x : Except ε α} {y : Except ε β}
    {f : α → Except ε γ} {g : β → Except ε δ} (h : Related R x y)
    (next : ∀ a b, R a b → Related S (f a) (g b)) : Related S (x >>= f) (y >>= g) := by
  cases h with
  | ok h => exact next _ _ h
  | error e => exact .error e

/-- Folds of related steps over lists whose members correspond. -/
theorem Related.foldlM {S : σ → τ → Prop} {f : σ → α → Except ε σ} {g : τ → β → Except ε τ}
    {l : List α} {r : List β} (hl : List.Forall₂ R l r) {s : σ} {t : τ} (start : S s t)
    (step : ∀ s t a b, S s t → R a b → Related S (f s a) (g t b)) :
    Related S (l.foldlM f s) (r.foldlM g t) := by
  induction hl generalizing s t with
  | nil => exact .ok start
  | cons hab _ ih => exact (step s t _ _ start hab).bind fun _ _ h => ih h

theorem Related.foldlM_same {S : σ → τ → Prop} {f : σ → α → Except ε σ}
    {g : τ → α → Except ε τ} (l : List α) {s : σ} {t : τ} (start : S s t)
    (step : ∀ s t a, S s t → Related S (f s a) (g t a)) :
    Related S (l.foldlM f s) (l.foldlM g t) := by
  refine Related.foldlM (R := Eq) (List.forall₂_same.mpr fun _ _ => rfl) start ?_
  intro s t a b h e
  rw [← e]
  exact step s t a h

theorem getElem?_rel {l : List α} {r : List β} (h : List.Forall₂ R l r) (i : Nat) :
    Option.Rel R l[i]? r[i]? := by
  induction h generalizing i with
  | nil => exact .none
  | cons hab _ ih =>
      cases i with
      | zero => exact .some hab
      | succ i => exact ih i

theorem rel_mono {S : α → β → Prop} {x : Option α} {y : Option β} (h : Option.Rel R x y)
    (imp : ∀ a b, R a b → S a b) : Option.Rel S x y := by
  cases h with
  | none => exact .none
  | some hab => exact .some (imp _ _ hab)

theorem rel_isSome_eq {x : Option α} {y : Option β} (h : Option.Rel R x y) :
    x.isSome = y.isSome := by
  cases h with
  | none => rfl
  | some hab => rfl

theorem rel_getD {x : Option α} {y : Option β} (h : Option.Rel R x y) {a : α} {b : β}
    (hab : R a b) : R (x.getD a) (y.getD b) := by
  cases h with
  | none => exact hab
  | some hfound => exact hfound

theorem length_flatMap_eq {f : α → List γ} {g : β → List δ}
    (same : ∀ a b, R a b → (f a).length = (g b).length) {l : List α} {r : List β}
    (h : List.Forall₂ R l r) : (l.flatMap f).length = (r.flatMap g).length := by
  induction h with
  | nil => rfl
  | cons hab _ ih => rw [List.flatMap_cons, List.flatMap_cons, List.length_append,
      List.length_append, same _ _ hab, ih]

end Outcome

namespace OrdMap

variable {κ α β : Type} [Key κ] {R : α → β → Prop} {m : OrdMap κ α} {n : OrdMap κ β}

def Related (R : α → β → Prop) (m : OrdMap κ α) (n : OrdMap κ β) : Prop :=
  ∀ k, Option.Rel R (m.find? k) (n.find? k)

theorem Related.empty : Related R (.empty : OrdMap κ α) .empty :=
  fun _ => .none

theorem Related.insert (h : m.Related R n) (k : κ) {a : α} {b : β} (hab : R a b) :
    (m.insert k a).Related R (n.insert k b) := by
  classical
  intro x
  rw [find?_insert, find?_insert]
  split
  · exact .some hab
  · exact h x

theorem Related.mono {S : α → β → Prop} (h : m.Related R n) (imp : ∀ a b, R a b → S a b) :
    m.Related S n :=
  fun k => Outcome.rel_mono (h k) imp

theorem Related.contains_eq (h : m.Related R n) (k : κ) : m.contains k = n.contains k :=
  Outcome.rel_isSome_eq (h k)

omit [Key κ] in
theorem forall₂_of_keys {l : List (κ × α)} {r : List (κ × β)} (keys : l.map (·.1) = r.map (·.1))
    (held : ∀ k a b, (k, a) ∈ l → (k, b) ∈ r → R a b) :
    List.Forall₂ (fun d e => d.1 = e.1 ∧ R d.2 e.2) l r := by
  induction l generalizing r with
  | nil =>
      cases r with
      | nil => exact .nil
      | cons e r => cases keys
  | cons d l ih =>
      cases r with
      | nil => cases keys
      | cons e r =>
          obtain ⟨k, a⟩ := d
          obtain ⟨k', b⟩ := e
          rw [List.map_cons, List.map_cons, List.cons.injEq] at keys
          obtain ⟨rfl, keys⟩ := keys
          have first : R a b := held k a b List.mem_cons_self List.mem_cons_self
          refine .cons ⟨rfl, first⟩ (ih keys fun k a b ha hb => ?_)
          exact held k a b (List.mem_cons_of_mem _ ha) (List.mem_cons_of_mem _ hb)

/-- The entries of related maps correspond one by one. -/
theorem Related.entries (h : m.Related R n) :
    List.Forall₂ (fun d e => d.1 = e.1 ∧ R d.2 e.2) m.entries n.entries := by
  have keys : m.keys = n.keys := by
    refine OrdSet.eq_of_ordered (List.pairwise_map.mpr m.ordered)
      (List.pairwise_map.mpr n.ordered) fun k => ?_
    rw [mem_keys_iff, mem_keys_iff]
    exact Bool.eq_iff_iff.mp (h.contains_eq k)
  refine forall₂_of_keys keys fun k a b ha hb => ?_
  have hk := h k
  rw [find?_eq_some_iff.mpr ha, find?_eq_some_iff.mpr hb] at hk
  cases hk with
  | some hab => exact hab

theorem Related.of_entries
    (h : List.Forall₂ (fun d e => d.1 = e.1 ∧ R d.2 e.2) m.entries n.entries) : m.Related R n := by
  intro k
  unfold find?
  generalize m.entries = l, n.entries = r at h
  induction h with
  | nil => exact .none
  | @cons d e _ _ hde _ ih =>
      simp only [findIn, hde.1]
      split
      · exact .some hde.2
      · exact ih

/-! ## Maps from ordered lists -/

theorem insertInto_of_last {k : κ} {a : α} {l : List (κ × α)}
    (last : ∀ e, e ∈ l → Key.lt e.1 k = true) : insertInto k a l = l ++ [(k, a)] := by
  induction l with
  | nil => rfl
  | cons e rest ih =>
      have hlt := last e List.mem_cons_self
      rw [insertInto, Key.asymm hlt, hlt, ih fun d hd => last d (List.mem_cons_of_mem e hd)]
      rfl

theorem entries_ofList {l : List (κ × α)}
    (ordered : l.Pairwise fun d e => Key.lt d.1 e.1 = true) : (ofList l).entries = l := by
  induction l using List.reverseRecOn with
  | nil => rfl
  | append_singleton l e ih =>
      obtain ⟨before, -, after⟩ := List.pairwise_append.mp ordered
      have last : ∀ d, d ∈ l → Key.lt d.1 e.1 = true := fun d hd =>
        after d hd e (List.mem_singleton_self e)
      rw [ofList, List.foldl_append]
      change insertInto e.1 e.2 (ofList l).entries = _
      rw [ih before, insertInto_of_last last]

/-- Changing what a map holds under its keys, one by one. -/
theorem Related.ofList {l : List (κ × β)}
    (h : List.Forall₂ (fun d e => d.1 = e.1 ∧ R d.2 e.2) m.entries l) :
    m.Related R (.ofList l) := by
  have keys : m.entries.map (·.1) = l.map (·.1) := by
    rw [← List.forall₂_eq_eq_eq, List.forall₂_map_left_iff, List.forall₂_map_right_iff]
    exact h.imp fun _ _ hde => hde.1
  have ordered : l.Pairwise fun d e => Key.lt d.1 e.1 = true := by
    have mapped : (m.entries.map (·.1)).Pairwise fun a b => Key.lt a b = true :=
      List.pairwise_map.mpr m.ordered
    rw [keys] at mapped
    exact List.pairwise_map.mp mapped
  apply Related.of_entries
  rw [entries_ofList ordered]
  exact h

end OrdMap

end TagFlow
