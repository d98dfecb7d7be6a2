import Mathlib.Data.List.Forall2

/-! # Computations that may fail

A sequence of steps succeeds exactly when each step does, mapping over a list succeeds
exactly when each member does, and a fold of such steps carries an invariant that may
speak of the part of the list already taken in.
-/

namespace TagFlow

namespace Outcome

variable {ε α β σ : Type}

theorem bind_eq_ok {x : Except ε α} {f : α → Except ε β} {b : β} :
    (x >>= f) = .ok b ↔ ∃ a, x = .ok a ∧ f a = .ok b := by
  cases x <;> simp [bind, Except.bind]

theorem bind_eq_error {x : Except ε α} {f : α → Except ε β} {e : ε} :
    (x >>= f) = .error e ↔ x = .error e ∨ ∃ a, x = .ok a ∧ f a = .error e := by
  cases x <;> simp [bind, Except.bind]

/-- Whether a computation succeeds with a result of a kind can be tested by running it. -/
instance decidableExistsOk {P : α → Prop} [DecidablePred P] :
    (x : Except ε α) → Decidable (∃ a, x = .ok a ∧ P a)
  | .ok a => decidable_of_iff (P a) ⟨fun h => ⟨a, rfl, h⟩, fun ⟨_, e, h⟩ => Except.ok.inj e ▸ h⟩
  | .error _ => isFalse (by simp)

instance decidableEqOk [DecidableEq α] (a : α) : (x : Except ε α) → Decidable (x = .ok a)
  | .ok b => decidable_of_iff (b = a) (by simp)
  | .error _ => isFalse (by simp)

theorem exists_left_of_forall₂ {R : α → β → Prop} {l : List α} {r : List β}
    (h : List.Forall₂ R l r) {b : β} (hb : b ∈ r) : ∃ a, a ∈ l ∧ R a b := by
  induction h with
  | nil => cases hb
  | cons hab _ ih =>
      rcases List.mem_cons.mp hb with rfl | hb
      · exact ⟨_, List.mem_cons_self, hab⟩
      · obtain ⟨a, ha, hr⟩ := ih hb
        exact ⟨a, List.mem_cons_of_mem _ ha, hr⟩

theorem exists_right_of_forall₂ {R : α → β → Prop} {l : List α} {r : List β}
    (h : List.Forall₂ R l r) {a : α} (ha : a ∈ l) : ∃ b, b ∈ r ∧ R a b :=
  exists_left_of_forall₂ h.flip ha

theorem getElem?_of_forall₂ {R : α → β → Prop} {l : List α} {r : List β}
    (h : List.Forall₂ R l r) {i : Nat} {a : α} (ha : l[i]? = some a) :
    ∃ b, r[i]? = some b ∧ R a b := by
  induction h generalizing i with
  | nil => simp at ha
  | cons hab _ ih =>
      cases i with
      | zero =>
          rw [List.getElem?_cons_zero, Option.some.injEq] at ha
          exact ⟨_, List.getElem?_cons_zero, ha ▸ hab⟩
      | succ i =>
          rw [List.getElem?_cons_succ] at ha
          obtain ⟨b, hb, hr⟩ := ih ha
          exact ⟨b, by rw [List.getElem?_cons_succ]; exact hb, hr⟩

theorem forall₂_replicate {R : α → β → Prop} {a : α} {b : β} (hab : R a b) (count : Nat) :
    List.Forall₂ R (List.replicate count a) (List.replicate count b) := by
  induction count with
  | zero => exact .nil
  | succ count ih => exact .cons hab ih

theorem forall₂_set {R : α → β → Prop} {l : List α} {r : List β} (h : List.Forall₂ R l r)
    {a : α} {b : β} (hab : R a b) (i : Nat) : List.Forall₂ R (l.set i a) (r.set i b) := by
  induction h generalizing i with
  | nil => exact .nil
  | cons hhead htail ih =>
      cases i with
      | zero => exact .cons hab htail
      | succ i => exact .cons hhead (ih i)

/-- Where keys are distinct, a member is found by its key. -/
theorem find?_key_of_mem {κ : Type} [DecidableEq κ] {key : α → κ} {l : List α}
    (distinct : (l.map key).Nodup) {a : α} (ha : a ∈ l) :
    l.find? (fun b => key b = key a) = some a := by
  induction l with
  | nil => cases ha
  | cons first rest ih =>
      obtain ⟨fresh, distinct⟩ := List.nodup_cons.mp distinct
      rcases List.mem_cons.mp ha with rfl | ha
      · simp
      · have apart : key first ≠ key a := fun e => fresh (e ▸ List.mem_map_of_mem ha)
        rw [List.find?_cons_of_neg (by simpa using apart)]
        exact ih distinct ha

theorem mapM_eq_ok {f : α → Except ε β} {l : List α} {r : List β} :
    l.mapM f = .ok r ↔ List.Forall₂ (fun a b => f a = .ok b) l r := by
  induction l generalizing r with
  | nil =>
      rw [List.mapM_nil, List.forall₂_nil_left_iff]
      constructor
      · intro h
        cases h
        rfl
      · intro h
        subst h
        rfl
  | cons a l ih =>
      rw [List.mapM_cons, List.forall₂_cons_left_iff]
      constructor
      · intro h
        obtain ⟨b, hb, h⟩ := bind_eq_ok.mp h
        obtain ⟨bs, hbs, h⟩ := bind_eq_ok.mp h
        cases h
        exact ⟨b, bs, hb, ih.mp hbs, rfl⟩
      · intro ⟨b, bs, hb, hbs, hr⟩
        subst hr
        exact bind_eq_ok.mpr ⟨b, hb, bind_eq_ok.mpr ⟨bs, ih.mpr hbs, rfl⟩⟩

theorem mapM_total {f : α → Except ε β} {l : List α} (h : ∀ a, a ∈ l → ∃ b, f a = .ok b) :
    ∃ r, l.mapM f = .ok r := by
  induction l with
  | nil => exact ⟨[], rfl⟩
  | cons a l ih =>
      obtain ⟨b, hb⟩ := h a List.mem_cons_self
      obtain ⟨bs, hbs⟩ := ih fun c hc => h c (List.mem_cons_of_mem a hc)
      exact ⟨b :: bs, mapM_eq_ok.mpr (.cons hb (mapM_eq_ok.mp hbs))⟩

/-- What holds of the empty part and is kept by every successful step holds of the
whole list. -/
theorem foldlM_keeps {f : σ → α → Except ε σ} (Inv : List α → σ → Prop) {l : List α}
    {s s' : σ} (start : Inv [] s)
    (step : ∀ done a s s', a ∈ l → Inv done s → f s a = .ok s' → Inv (done ++ [a]) s')
    (h : l.foldlM f s = .ok s') : Inv l s' := by
  suffices go : ∀ done rest s, (∀ a, a ∈ rest → a ∈ l) → Inv done s →
      rest.foldlM f s = .ok s' → Inv (done ++ rest) s' from
    go [] l s (fun _ ha => ha) start h
  intro done rest
  induction rest generalizing done with
  | nil =>
      intro s _ hs h
      cases h
      simpa using hs
  | cons a rest ih =>
      intro s sub hs h
      obtain ⟨mid, hm, h⟩ := bind_eq_ok.mp h
      have hmid := step done a s mid (sub a (by simp)) hs hm
      simpa using ih (done ++ [a]) mid (fun b hb => sub b (by simp [hb])) hmid h

theorem mem_of_concat_isPrefix {done l : List α} {a : α} (h : done ++ [a] <+: l) : a ∈ l :=
  h.subset (by simp)

/-- A fold whose steps all succeed under the invariant succeeds. A step knows that what it
takes in comes right after the part already taken in. -/
theorem foldlM_total {f : σ → α → Except ε σ} (Inv : List α → σ → Prop) {l : List α}
    {s : σ} (start : Inv [] s)
    (step : ∀ done a s, done ++ [a] <+: l → Inv done s →
      ∃ s', f s a = .ok s' ∧ Inv (done ++ [a]) s') :
    ∃ s', l.foldlM f s = .ok s' ∧ Inv l s' := by
  suffices go : ∀ done rest s, done ++ rest = l → Inv done s →
      ∃ s', rest.foldlM f s = .ok s' ∧ Inv (done ++ rest) s' from
    go [] l s rfl start
  intro done rest
  induction rest generalizing done with
  | nil => exact fun s _ hs => ⟨s, rfl, by simpa using hs⟩
  | cons a rest ih =>
      intro s hl hs
      have hnext : (done ++ [a]) ++ rest = l := by simpa using hl
      obtain ⟨mid, hm, hmid⟩ := step done a s ⟨rest, hnext⟩ hs
      obtain ⟨s', hr, hs'⟩ := ih (done ++ [a]) mid hnext hmid
      refine ⟨s', ?_, by simpa using hs'⟩
      rw [List.foldlM_cons, hm]
      exact hr

/-- Two folds over the same list stay related when their steps do. -/
theorem foldlM_related {f g : σ → α → Except ε σ} (R : σ → σ → Prop) {l : List α}
    {s s' t t' : σ} (start : R s t)
    (step : ∀ a s s' t t', a ∈ l → R s t → f s a = .ok s' → g t a = .ok t' → R s' t')
    (hf : l.foldlM f s = .ok s') (hg : l.foldlM g t = .ok t') : R s' t' := by
  induction l generalizing s t with
  | nil =>
      cases hf
      cases hg
      exact start
  | cons a l ih =>
      obtain ⟨smid, hsmid, hf⟩ := bind_eq_ok.mp hf
      obtain ⟨tmid, htmid, hg⟩ := bind_eq_ok.mp hg
      exact ih (step a s smid t tmid List.mem_cons_self start hsmid htmid)
        (fun b s s' t t' hb => step b s s' t t' (List.mem_cons_of_mem a hb)) hf hg

/-- A fold that fails has failed at one of its members. -/
theorem foldlM_eq_error {f : σ → α → Except ε σ} {l : List α} {s : σ} {e : ε}
    (h : l.foldlM f s = .error e) : ∃ a s', a ∈ l ∧ f s' a = .error e := by
  induction l generalizing s with
  | nil => cases h
  | cons a l ih =>
      rcases bind_eq_error.mp h with h | ⟨mid, -, h⟩
      · exact ⟨a, s, List.mem_cons_self, h⟩
      · obtain ⟨b, s', hb, h⟩ := ih h
        exact ⟨b, s', List.mem_cons_of_mem a hb, h⟩

end Outcome

end TagFlow
