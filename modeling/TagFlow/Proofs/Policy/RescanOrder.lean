import Mathlib.Data.List.Nodup
import TagFlow.Proofs.Policy.Rescan

/-! # Rescans that only grow

When no removal is guarded, more marks on the inputs give more marks on the result: a
guarded rule then only ever adds, and an unguarded removal fires whatever the marks are.
Every pass starts from nothing, so the marks of each operation stay below what its equation
asks for, and a write never takes a tag away.
-/

namespace TagFlow

namespace Rescan

instance : LE Marks where
  le a b := (∀ tag, tag ∈ a.secrecy → tag ∈ b.secrecy) ∧
    ∀ tag, tag ∈ a.integrity → tag ∈ b.integrity

/-- Every entry of the first map has one in the second with at least the same tags. -/
def Below (x y : MarkMap) : Prop :=
  ∀ v a, x.find? v = some a → ∃ b, y.find? v = some b ∧ a ≤ b

/-- No rule that removes a tag asks for anything. -/
def Unguarded (book : RuleBook) : Prop :=
  ∀ name entry, book.rule? name = some entry → entry.action = .removeConfidentiality →
    ∀ argument, entry.required.find? argument = none

variable {book : RuleBook} {m : Module} {x y : MarkMap} {o : Operation}

theorem Marks.le_refl (a : Marks) : a ≤ a :=
  ⟨fun _ h => h, fun _ h => h⟩

theorem Below.mem_secrecyOf (h : Below x y) {v : Value} {tag : Tag} (ht : tag ∈ secrecyOf x v) :
    tag ∈ secrecyOf y v := by
  obtain ⟨a, ha, hta⟩ := exists_find?_of_mem_secrecyOf ht
  obtain ⟨b, hb, hab⟩ := h v a ha
  rw [secrecyOf_of_find? hb]
  exact hab.1 tag hta

theorem Below.mem_integrityOf (h : Below x y) {v : Value} {tag : Tag}
    (ht : tag ∈ integrityOf x v) : tag ∈ integrityOf y v := by
  obtain ⟨a, ha, hta⟩ := exists_find?_of_mem_integrityOf ht
  obtain ⟨b, hb, hab⟩ := h v a ha
  rw [integrityOf_of_find? hb]
  exact hab.2 tag hta

theorem Below.filled (h : Below x y) {entry : RuleBook.Entry} {role : String × Value}
    (hf : filled entry x role = true) : filled entry y role = true := by
  unfold Rescan.filled at hf ⊢
  cases ha : x.find? role.2 with
  | none => simp [ha] at hf
  | some a =>
      obtain ⟨b, hb, hab⟩ := h role.2 a ha
      cases hr : entry.required.find? role.1 with
      | none => simp [hr] at hf
      | some required =>
          simp only [ha, hb, hr, OrdSet.subset_iff] at hf ⊢
          exact fun tag ht => hab.2 tag (hf tag ht)

theorem Below.all_filled (h : Below x y) {entry : RuleBook.Entry} {roles : List (String × Value)}
    (hf : roles.all (Rescan.filled entry x) = true) :
    roles.all (Rescan.filled entry y) = true := by
  rw [List.all_eq_true] at hf ⊢
  exact fun role hrole => h.filled (hf role hrole)

/-- An unguarded rule fires only without roles, and then on all marks. -/
theorem all_filled_of_unguarded {entry : RuleBook.Entry} {roles : List (String × Value)}
    (hreq : ∀ argument, entry.required.find? argument = none)
    (hf : roles.all (filled entry y) = true) : roles.all (filled entry x) = true := by
  cases roles with
  | nil => rfl
  | cons role rest =>
      have hrole : filled entry y role = true := by simp at hf; exact hf.1
      unfold filled at hrole
      cases y.find? role.2 <;> simp [hreq role.1] at hrole

theorem Below.alters (h : Below x y) {action : RuleAction} {tag : Tag}
    (ha : Alters book x o action tag) : Alters book y o action tag := by
  obtain ⟨entry, hf, hact⟩ := ha
  obtain ⟨roles, hnames, hall⟩ := hf
  exact ⟨entry, ⟨roles, hnames, fun role hrole => h.filled (hall role hrole)⟩, hact⟩

theorem alters_remove_of_unguarded (hu : Unguarded book) {tag : Tag}
    (ha : Alters book y o .removeConfidentiality tag) :
    Alters book x o .removeConfidentiality tag := by
  obtain ⟨entry, hf, hact, htag⟩ := ha
  obtain ⟨roles, hnames, hall⟩ := hf
  obtain ⟨name, -, -, he⟩ := hnames.rule
  have hx := all_filled_of_unguarded (x := x) (hu name entry he hact) (List.all_eq_true.mpr hall)
  exact ⟨entry, ⟨roles, hnames, List.all_eq_true.mp hx⟩, hact, htag⟩

/-! ## The step -/

theorem ruleMarks_mono (h : Below x y) {entry : RuleBook.Entry} {roles : List (String × Value)}
    (hu : entry.action = .removeConfidentiality →
      ∀ argument, entry.required.find? argument = none) (v : Value) :
    ruleMarks entry roles x v ≤ ruleMarks entry roles y v := by
  constructor
  · intro tag ht
    rw [mem_secrecy_ruleMarks] at ht ⊢
    rcases ht with ⟨hall, hadd⟩ | ⟨hin, hkept⟩
    · exact .inl ⟨h.all_filled hall, hadd⟩
    · refine .inr ⟨h.mem_secrecyOf hin, ?_⟩
      intro ⟨hall, hrem, htag⟩
      exact hkept ⟨all_filled_of_unguarded (hu hrem) hall, hrem, htag⟩
  · intro tag ht
    rw [mem_integrity_ruleMarks] at ht ⊢
    rcases ht with ⟨hall, hadd⟩ | hin
    · exact .inl ⟨h.all_filled hall, hadd⟩
    · exact .inr (h.mem_integrityOf hin)

/-- Whether an operation can be evaluated does not depend on the marks, and what it gives
grows with them. -/
theorem transfer_mono (hu : Unguarded book) (h : Below x y) {b : Marks}
    (ht : transfer book y o = .ok (some b)) :
    ∃ a, transfer book x o = .ok (some a) ∧ a ≤ b := by
  rcases transfer_cases ht with ⟨hop, rfl⟩ | ⟨hop, htr⟩ | ⟨hop, rfl⟩
  · refine ⟨mergeMarks x o, by rw [transfer, if_pos hop], ?_, fun _ hi => hi⟩
    intro tag htag
    rw [mem_secrecy_mergeMarks] at htag ⊢
    obtain ⟨v, hv, htv⟩ := htag
    exact ⟨v, hv, h.mem_secrecyOf htv⟩
  · have hnm : o.operator ≠ Sql.merge := by rw [hop]; decide
    have lift : ∀ a, transformMarks book x o = .ok a → transfer book x o = .ok (some a) := by
      intro a ha
      rw [transfer, if_neg hnm, if_pos hop, ha]
      rfl
    obtain ⟨v, hv, ⟨name, hn, hi, rfl⟩ | ⟨entry, roles, hnames, rfl⟩⟩ := transformMarks_cases htr
    · exact ⟨_, lift _ (transformMarks_of_internal hv hn hi), fun _ => h.mem_secrecyOf,
        fun _ h => h⟩
    · obtain ⟨name, -, -, he⟩ := hnames.rule
      exact ⟨_, lift _ (transformMarks_of_names hv hnames), ruleMarks_mono h (hu name entry he) v⟩
  · have hne : o.operator ≠ Sql.merge ∧ o.operator ≠ Sql.tagTransform := by
      rcases hop with hop | hop <;> rw [hop] <;> decide
    exact ⟨{}, by rw [transfer, if_neg hne.1, if_neg hne.2, if_pos hop], Marks.le_refl _⟩

/-- The marks of every operation are below what its equation gives. -/
def Rising (book : RuleBook) (m : Module) (x : MarkMap) : Prop :=
  ∀ o a b, o ∈ m.operations → x.find? (.default o.id) = some a →
    transfer book x o = .ok (some b) → a ≤ b

theorem Rising.empty : Rising book m .empty := by
  intro o a b _ hf
  simp at hf

/-- A write only grows marks. -/
theorem Rising.below_insert (h : Rising book m x) (ho : o ∈ m.operations) {new : Marks}
    (ht : transfer book x o = .ok (some new)) : Below x (x.insert (.default o.id) new) := by
  intro v a ha
  rw [OrdMap.find?_insert]
  by_cases hv : v = .default o.id
  · rw [if_pos hv]
    exact ⟨new, rfl, h o a new ho (hv ▸ ha) ht⟩
  · rw [if_neg hv]
    exact ⟨a, ha, Marks.le_refl a⟩

theorem Rising.insert (hu : Unguarded book) (distinct : (m.operations.map (·.id)).Nodup)
    (h : Rising book m x) (ho : o ∈ m.operations) {new : Marks}
    (ht : transfer book x o = .ok (some new)) :
    Rising book m (x.insert (.default o.id) new) := by
  have grown := h.below_insert ho ht
  intro p a b hp hf htp
  obtain ⟨a', ha', hab⟩ := transfer_mono hu grown htp
  by_cases hid : p.id = o.id
  · have same : p = o := List.inj_on_of_nodup_map distinct hp ho hid
    subst same
    rw [OrdMap.find?_insert_self, Option.some.injEq] at hf
    rw [ht, Except.ok.injEq, Option.some.injEq] at ha'
    rw [← hf, ha']
    exact hab
  · have hne : Value.default p.id ≠ Value.default o.id := by
      simpa [Value.default] using hid
    rw [OrdMap.find?_insert_of_ne x new hne] at hf
    have old := h p a a' hp hf ha'
    exact ⟨fun tag htag => hab.1 tag (old.1 tag htag), fun tag htag => hab.2 tag (old.2 tag htag)⟩

end Rescan

end TagFlow
