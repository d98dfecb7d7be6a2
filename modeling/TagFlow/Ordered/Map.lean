import TagFlow.Ordered.Set

/-! # Ordered maps

A finite map is its entries in increasing order of keys, one entry a key.
Lookups describe every operation, and maps with equal lookups are equal.
-/

namespace TagFlow

structure OrdMap (κ α : Type) [Key κ] where
  entries : List (κ × α)
  ordered : entries.Pairwise (fun a b => Key.lt a.1 b.1 = true)

namespace OrdMap

variable {κ α : Type} [Key κ]

instance [DecidableEq κ] [DecidableEq α] : DecidableEq (OrdMap κ α) := fun s t =>
  decidable_of_iff (s.entries = t.entries) <| by
    cases s
    cases t
    simp

def empty : OrdMap κ α := ⟨[], .nil⟩

instance : Inhabited (OrdMap κ α) := ⟨empty⟩

def keys (m : OrdMap κ α) : List κ := m.entries.map (·.1)

def size (m : OrdMap κ α) : Nat := m.entries.length

/-! ## Lookup -/

def findIn (k : κ) : List (κ × α) → Option α
  | [] => none
  | e :: rest => if Key.same k e.1 then some e.2 else findIn k rest

def find? (m : OrdMap κ α) (k : κ) : Option α := findIn k m.entries

def contains (m : OrdMap κ α) (k : κ) : Bool := (m.find? k).isSome

@[simp] theorem find?_empty (k : κ) : (empty : OrdMap κ α).find? k = none := rfl

theorem mem_of_findIn {k : κ} {a : α} {l : List (κ × α)} (h : findIn k l = some a) :
    (k, a) ∈ l := by
  induction l with
  | nil => simp [findIn] at h
  | cons e rest ih =>
      simp only [findIn] at h
      split at h
      · rename_i hs
        have hk := Key.same_iff.mp hs
        cases h
        subst hk
        simp
      · exact List.mem_cons_of_mem _ (ih h)

theorem findIn_of_mem {k : κ} {a : α} {l : List (κ × α)}
    (o : l.Pairwise (fun a b => Key.lt a.1 b.1 = true)) (h : (k, a) ∈ l) :
    findIn k l = some a := by
  induction l with
  | nil => simp at h
  | cons e rest ih =>
      rcases List.mem_cons.mp h with rfl | hr
      · simp [findIn]
      · have hlt := List.rel_of_pairwise_cons o hr
        simp only [findIn, Key.same_eq_false (Ne.symm (Key.ne_of_lt hlt)), Bool.false_eq_true,
          if_false]
        exact ih o.of_cons hr

theorem find?_eq_some_iff {m : OrdMap κ α} {k : κ} {a : α} :
    m.find? k = some a ↔ (k, a) ∈ m.entries :=
  ⟨mem_of_findIn, findIn_of_mem m.ordered⟩

theorem mem_keys_iff {m : OrdMap κ α} {k : κ} : k ∈ m.keys ↔ (m.find? k).isSome = true := by
  constructor
  · intro h
    obtain ⟨⟨k', a⟩, he, hk⟩ := List.mem_map.mp h
    simp only at hk
    subst hk
    rw [find?_eq_some_iff.mpr he]
    rfl
  · intro h
    obtain ⟨a, ha⟩ := Option.isSome_iff_exists.mp h
    exact List.mem_map.mpr ⟨(k, a), find?_eq_some_iff.mp ha, rfl⟩

/-! ## Insertion -/

/-- A later entry for a key replaces the earlier one. -/
def insertInto (k : κ) (a : α) : List (κ × α) → List (κ × α)
  | [] => [(k, a)]
  | e :: rest =>
      if Key.lt k e.1 then (k, a) :: e :: rest
      else if Key.lt e.1 k then e :: insertInto k a rest
      else (k, a) :: rest

theorem mem_insertInto {k : κ} {a : α} {x : κ × α} {l : List (κ × α)}
    (h : x ∈ insertInto k a l) : x = (k, a) ∨ x ∈ l := by
  induction l with
  | nil => simpa [insertInto] using h
  | cons e rest ih =>
      simp only [insertInto] at h
      split at h
      · simpa using h
      · split at h
        · rcases List.mem_cons.mp h with rfl | h
          · simp
          · rcases ih h with rfl | h <;> simp [*]
        · rcases List.mem_cons.mp h with rfl | h <;> simp [*]

theorem insertInto_ordered (k : κ) (a : α) {l : List (κ × α)}
    (h : l.Pairwise (fun a b => Key.lt a.1 b.1 = true)) :
    (insertInto k a l).Pairwise (fun a b => Key.lt a.1 b.1 = true) := by
  induction l with
  | nil => simp [insertInto]
  | cons e rest ih =>
      have he : ∀ x, x ∈ rest → Key.lt e.1 x.1 = true := fun x hx =>
        List.rel_of_pairwise_cons h hx
      simp only [insertInto]
      split
      · rename_i hke
        refine List.Pairwise.cons ?_ h
        intro x hx
        rcases List.mem_cons.mp hx with rfl | hx
        · exact hke
        · exact Key.trans hke (he x hx)
      · split
        · rename_i hek
          refine List.Pairwise.cons ?_ (ih h.of_cons)
          intro x hx
          rcases mem_insertInto hx with rfl | hx
          · exact hek
          · exact he x hx
        · rename_i h₁ h₂
          have e₁ : k = e.1 := Key.connected (by simpa using h₁) (by simpa using h₂)
          refine List.Pairwise.cons ?_ h.of_cons
          intro x hx
          rw [e₁]
          exact he x hx

def insert (m : OrdMap κ α) (k : κ) (a : α) : OrdMap κ α :=
  ⟨insertInto k a m.entries, insertInto_ordered k a m.ordered⟩

theorem findIn_insertInto_self (k : κ) (a : α) (l : List (κ × α)) :
    findIn k (insertInto k a l) = some a := by
  induction l with
  | nil => simp [insertInto, findIn]
  | cons e rest ih =>
      simp only [insertInto]
      split
      · simp [findIn]
      · split
        · rename_i hek
          simp [findIn, Key.same_eq_false (Ne.symm (Key.ne_of_lt hek)), ih]
        · simp [findIn]

theorem findIn_insertInto_of_ne {k x : κ} (a : α) (l : List (κ × α)) (h : x ≠ k) :
    findIn x (insertInto k a l) = findIn x l := by
  induction l with
  | nil => simp [insertInto, findIn, Key.same_eq_false h]
  | cons e rest ih =>
      simp only [insertInto]
      split
      · simp [findIn, Key.same_eq_false h]
      · split
        · simp [findIn, ih]
        · rename_i h₁ h₂
          have e₁ : k = e.1 := Key.connected (by simpa using h₁) (by simpa using h₂)
          have hx : Key.same x e.1 = false := Key.same_eq_false (e₁ ▸ h)
          simp [findIn, Key.same_eq_false h, hx]

@[simp] theorem find?_insert_self (m : OrdMap κ α) (k : κ) (a : α) :
    (m.insert k a).find? k = some a :=
  findIn_insertInto_self k a m.entries

theorem find?_insert_of_ne (m : OrdMap κ α) {k x : κ} (a : α) (h : x ≠ k) :
    (m.insert k a).find? x = m.find? x :=
  findIn_insertInto_of_ne a m.entries h

theorem find?_insert [DecidableEq κ] (m : OrdMap κ α) (k x : κ) (a : α) :
    (m.insert k a).find? x = if x = k then some a else m.find? x := by
  split
  · rename_i h
    subst h
    simp
  · rename_i h
    exact find?_insert_of_ne m a h

/-- Later entries win. -/
def ofList (l : List (κ × α)) : OrdMap κ α :=
  l.foldl (fun m e => m.insert e.1 e.2) empty

theorem find?_ofList [DecidableEq κ] (l : List (κ × α)) (k : κ) :
    (ofList l).find? k = (l.reverse.find? (·.1 = k)).map (·.2) := by
  unfold ofList
  rw [List.foldl_eq_foldr_reverse]
  induction l.reverse with
  | nil => rfl
  | cons e rest ih =>
      rw [List.foldr_cons, find?_insert, List.find?_cons, ih]
      by_cases h : e.1 = k
      · simp [h]
      · simp [h, Ne.symm h]

/-! ## Maps with the same lookups -/

theorem eq_of_findIn {l m : List (κ × α)}
    (hl : l.Pairwise (fun a b => Key.lt a.1 b.1 = true))
    (hm : m.Pairwise (fun a b => Key.lt a.1 b.1 = true))
    (h : ∀ k, findIn k l = findIn k m) : l = m := by
  induction l generalizing m with
  | nil =>
      cases m with
      | nil => rfl
      | cons e m => have := h e.1; simp [findIn] at this
  | cons d l ih =>
      cases m with
      | nil => have := h d.1; simp [findIn] at this
      | cons e m =>
          have hd : ∀ x, x ∈ l → Key.lt d.1 x.1 = true := fun x hx =>
            List.rel_of_pairwise_cons hl hx
          have he : ∀ x, x ∈ m → Key.lt e.1 x.1 = true := fun x hx =>
            List.rel_of_pairwise_cons hm hx
          have hde : (d.1, d.2) ∈ e :: m :=
            mem_of_findIn ((h d.1).symm.trans (by simp [findIn]))
          have hed : (e.1, e.2) ∈ d :: l :=
            mem_of_findIn ((h e.1).trans (by simp [findIn]))
          have e₀ : d = e := by
            rcases List.mem_cons.mp hde with hde | hde
            · exact hde
            · rcases List.mem_cons.mp hed with hed | hed
              · exact hed.symm
              · have h₁ := Key.asymm (hd _ hed)
                rw [he _ hde] at h₁
                exact Bool.noConfusion h₁
          subst e₀
          congr 1
          refine ih hl.of_cons hm.of_cons fun k => ?_
          by_cases hk : k = d.1
          · subst hk
            have none_of : ∀ r : List (κ × α), (∀ x, x ∈ r → Key.lt d.1 x.1 = true) →
                findIn d.1 r = none := by
              intro r hr
              cases hf : findIn d.1 r with
              | none => rfl
              | some a =>
                  have := hr _ (mem_of_findIn hf)
                  rw [Key.irrefl] at this
                  exact Bool.noConfusion this
            rw [none_of l hd, none_of m he]
          · have := h k
            simpa [findIn, Key.same_eq_false hk] using this

theorem ext {m n : OrdMap κ α} (h : ∀ k, m.find? k = n.find? k) : m = n := by
  cases m with
  | mk l hl =>
    cases n with
    | mk r hr =>
      have e : l = r := eq_of_findIn hl hr h
      subst e
      rfl

end OrdMap

end TagFlow
