import TagFlow.Ordered.Key

/-! # Ordered sets

A finite set is its members in increasing order. Operations are described by
what they do to membership, and two sets with the same members are equal. A list in
any other order is searched for the first member that it repeats.
-/

namespace TagFlow

structure OrdSet (κ : Type) [Key κ] where
  toList : List κ
  ordered : toList.Pairwise (fun a b => Key.lt a b = true)

namespace OrdSet

variable {κ : Type} [Key κ]

instance : Membership κ (OrdSet κ) where
  mem s a := a ∈ s.toList

theorem mem_def {s : OrdSet κ} {a : κ} : a ∈ s ↔ a ∈ s.toList := Iff.rfl

def contains (s : OrdSet κ) (a : κ) : Bool :=
  s.toList.any (Key.same a)

@[simp] theorem contains_iff {s : OrdSet κ} {a : κ} : s.contains a = true ↔ a ∈ s := by
  simp [contains, mem_def, List.any_eq_true]

instance (s : OrdSet κ) (a : κ) : Decidable (a ∈ s) :=
  decidable_of_iff (s.contains a = true) contains_iff

instance [DecidableEq κ] : DecidableEq (OrdSet κ) := fun s t =>
  decidable_of_iff (s.toList = t.toList) <| by
    cases s
    cases t
    simp

def empty : OrdSet κ := ⟨[], .nil⟩

instance : Inhabited (OrdSet κ) := ⟨empty⟩

def isEmpty (s : OrdSet κ) : Bool := s.toList.isEmpty

def size (s : OrdSet κ) : Nat := s.toList.length

@[simp] theorem not_mem_empty (a : κ) : ¬ a ∈ (empty : OrdSet κ) := by
  simp [mem_def, empty]

theorem isEmpty_iff {s : OrdSet κ} : s.isEmpty = true ↔ ∀ a, ¬ a ∈ s := by
  simp only [isEmpty, List.isEmpty_iff, mem_def]
  constructor
  · intro h a
    simp [h]
  · intro h
    exact List.eq_nil_iff_forall_not_mem.mpr h

/-! ## Insertion -/

def insertInto (a : κ) : List κ → List κ
  | [] => [a]
  | b :: rest =>
      if Key.lt a b then a :: b :: rest
      else if Key.lt b a then b :: insertInto a rest
      else b :: rest

theorem mem_insertInto {a x : κ} {l : List κ} : x ∈ insertInto a l ↔ x = a ∨ x ∈ l := by
  induction l with
  | nil => simp [insertInto]
  | cons b rest ih =>
      by_cases h : Key.lt a b = true
      · simp [insertInto, h]
      · by_cases k : Key.lt b a = true
        · simp only [insertInto, h, k, if_true, List.mem_cons, ih, Bool.false_eq_true, if_false]
          constructor <;> rintro (hx | hx | hx) <;> simp [hx]
        · have e : a = b := Key.connected (by simpa using h) (by simpa using k)
          subst e
          simp [insertInto, Key.irrefl]

theorem insertInto_ordered (a : κ) {l : List κ}
    (h : l.Pairwise (fun a b => Key.lt a b = true)) :
    (insertInto a l).Pairwise (fun a b => Key.lt a b = true) := by
  induction l with
  | nil => simp [insertInto]
  | cons b rest ih =>
      have hb : ∀ {x}, x ∈ rest → Key.lt b x = true := List.rel_of_pairwise_cons h
      simp only [insertInto]
      split
      · rename_i hab
        refine List.Pairwise.cons ?_ h
        intro x hx
        rcases List.mem_cons.mp hx with rfl | hx
        · exact hab
        · exact Key.trans hab (hb hx)
      · split
        · rename_i hba
          refine List.Pairwise.cons ?_ (ih h.of_cons)
          intro x hx
          rcases mem_insertInto.mp hx with rfl | hx
          · exact hba
          · exact hb hx
        · exact h

def insert (a : κ) (s : OrdSet κ) : OrdSet κ :=
  ⟨insertInto a s.toList, insertInto_ordered a s.ordered⟩

@[simp] theorem mem_insert {a x : κ} {s : OrdSet κ} : x ∈ s.insert a ↔ x = a ∨ x ∈ s :=
  mem_insertInto

/-- Members may be listed in any order and more than once. -/
def ofList (l : List κ) : OrdSet κ :=
  l.foldl (fun s a => s.insert a) empty

theorem mem_foldl_insert {x : κ} {l : List κ} {s : OrdSet κ} :
    x ∈ l.foldl (fun s a => s.insert a) s ↔ x ∈ s ∨ x ∈ l := by
  induction l generalizing s with
  | nil => simp
  | cons b rest ih =>
      simp only [List.foldl_cons, ih, mem_insert, List.mem_cons]
      constructor
      · rintro ((h | h) | h) <;> simp [h]
      · rintro (h | h | h) <;> simp [h]

@[simp] theorem mem_ofList {x : κ} {l : List κ} : x ∈ ofList l ↔ x ∈ l := by
  simp [ofList, mem_foldl_insert]

/-! ## Removal and combination -/

def filter (p : κ → Bool) (s : OrdSet κ) : OrdSet κ :=
  ⟨s.toList.filter p, s.ordered.filter _⟩

@[simp] theorem mem_filter {x : κ} {p : κ → Bool} {s : OrdSet κ} :
    x ∈ s.filter p ↔ x ∈ s ∧ p x = true := by
  simp [filter, mem_def]

def erase (a : κ) (s : OrdSet κ) : OrdSet κ :=
  s.filter fun b => !Key.same a b

@[simp] theorem mem_erase {a x : κ} {s : OrdSet κ} : x ∈ s.erase a ↔ x ∈ s ∧ x ≠ a := by
  simp only [erase, mem_filter, Bool.not_eq_true']
  constructor
  · rintro ⟨h, k⟩
    refine ⟨h, ?_⟩
    rintro rfl
    simp at k
  · rintro ⟨h, k⟩
    exact ⟨h, Key.same_eq_false (Ne.symm k)⟩

def union (s t : OrdSet κ) : OrdSet κ :=
  t.toList.foldl (fun u a => u.insert a) s

@[simp] theorem mem_union {x : κ} {s t : OrdSet κ} : x ∈ s.union t ↔ x ∈ s ∨ x ∈ t :=
  mem_foldl_insert

def inter (s t : OrdSet κ) : OrdSet κ :=
  s.filter t.contains

@[simp] theorem mem_inter {x : κ} {s t : OrdSet κ} : x ∈ s.inter t ↔ x ∈ s ∧ x ∈ t := by
  simp [inter]

def subset (s t : OrdSet κ) : Bool :=
  s.toList.all t.contains

@[simp] theorem subset_iff {s t : OrdSet κ} : s.subset t = true ↔ ∀ a, a ∈ s → a ∈ t := by
  simp [subset, List.all_eq_true, mem_def]

/-! ## Sets with the same members -/

theorem eq_of_ordered {l m : List κ}
    (hl : l.Pairwise (fun a b => Key.lt a b = true))
    (hm : m.Pairwise (fun a b => Key.lt a b = true))
    (h : ∀ a, a ∈ l ↔ a ∈ m) : l = m := by
  induction l generalizing m with
  | nil => exact (List.eq_nil_iff_forall_not_mem.mpr fun a ha => by simpa using (h a).mpr ha).symm
  | cons a l ih =>
      cases m with
      | nil => exact absurd ((h a).mp (by simp)) (by simp)
      | cons b m =>
          have hal : ∀ {x}, x ∈ l → Key.lt a x = true := List.rel_of_pairwise_cons hl
          have hbm : ∀ {x}, x ∈ m → Key.lt b x = true := List.rel_of_pairwise_cons hm
          have hab : a = b := by
            rcases List.mem_cons.mp ((h a).mp (by simp)) with e | ha
            · exact e
            · rcases List.mem_cons.mp ((h b).mpr (by simp)) with e | hb
              · exact e.symm
              · have := Key.asymm (hal hb)
                rw [hbm ha] at this
                exact Bool.noConfusion this
          subst hab
          congr 1
          refine ih hl.of_cons hm.of_cons fun x => ?_
          constructor
          · intro hx
            rcases List.mem_cons.mp ((h x).mp (by simp [hx])) with e | hx'
            · exact absurd e.symm (Key.ne_of_lt (hal hx))
            · exact hx'
          · intro hx
            rcases List.mem_cons.mp ((h x).mpr (by simp [hx])) with e | hx'
            · exact absurd e.symm (Key.ne_of_lt (hbm hx))
            · exact hx'

theorem ext {s t : OrdSet κ} (h : ∀ a, a ∈ s ↔ a ∈ t) : s = t := by
  cases s with
  | mk l hl =>
    cases t with
    | mk m hm =>
      have e : l = m := eq_of_ordered hl hm h
      subst e
      rfl

end OrdSet

/-! ## Repetitions in a list -/

def firstRepeatAfter {α : Type} [DecidableEq α] (seen : List α) : List α → Option α
  | [] => none
  | a :: rest => if a ∈ seen then some a else firstRepeatAfter (a :: seen) rest

/-- The member whose second occurrence comes first. -/
def firstRepeat? {α : Type} [DecidableEq α] (l : List α) : Option α := firstRepeatAfter [] l

theorem firstRepeatAfter_eq_none_iff {α : Type} [DecidableEq α] {seen l : List α} :
    firstRepeatAfter seen l = none ↔ l.Nodup ∧ ∀ a, a ∈ l → ¬ a ∈ seen := by
  induction l generalizing seen with
  | nil => simp [firstRepeatAfter]
  | cons a rest ih =>
      by_cases h : a ∈ seen
      · simp [firstRepeatAfter, h]
      · simp only [firstRepeatAfter, h, if_false, ih, List.nodup_cons, List.mem_cons]
        constructor
        · rintro ⟨nodup, apart⟩
          refine ⟨⟨fun ha => apart a ha (.inl rfl), nodup⟩, ?_⟩
          intro b hb hs
          rcases hb with rfl | hb
          · exact h hs
          · exact apart b hb (.inr hs)
        · rintro ⟨⟨fresh, nodup⟩, apart⟩
          refine ⟨nodup, ?_⟩
          intro b hb hs
          rcases hs with rfl | hs
          · exact fresh hb
          · exact apart b (.inr hb) hs

@[simp] theorem firstRepeat?_eq_none_iff {α : Type} [DecidableEq α] {l : List α} :
    firstRepeat? l = none ↔ l.Nodup := by
  simp [firstRepeat?, firstRepeatAfter_eq_none_iff]

end TagFlow
