import Mathlib.Data.List.Forall2
import Mathlib.Data.List.Infix
import Mathlib.Data.List.Nodup
import TagFlow.Proofs.Outcome
import TagFlow.Scenario.Error

/-! # Computations that decide a condition

A computation decides a condition when it succeeds if the condition holds and fails in a harmless
way if it does not. Computations that do so one after the other decide all their conditions
together, so that what a whole construction accepts is read off from its steps.
-/

namespace TagFlow

namespace Outcome

variable {ε α β σ : Type} {mild : ε → Prop} {P P' : Prop} {Q : α → Prop} {x : Except ε α}

/-- Success exactly under the condition, with a result as described, and otherwise a harmless
failure. -/
inductive Decides (mild : ε → Prop) (P : Prop) (Q : α → Prop) : Except ε α → Prop
  | accepts {a : α} (holds : P) (spec : Q a) : Decides mild P Q (.ok a)
  | refuses {e : ε} (fails : ¬ P) (harmless : mild e) : Decides mild P Q (.error e)

namespace Decides

theorem ok_iff (h : Decides mild P Q x) : (∃ a, x = .ok a) ↔ P := by
  cases h with
  | accepts holds _ => simp [holds]
  | refuses fails _ => simp [fails]

theorem spec_of_ok {a : α} (h : Decides mild P Q x) (hx : x = .ok a) : Q a := by
  subst hx
  cases h with
  | accepts _ spec => exact spec

theorem mild_of_error {e : ε} (h : Decides mild P Q x) (hx : x = .error e) : mild e := by
  subst hx
  cases h with
  | refuses _ harmless => exact harmless

/-- Where every failure is harmless, success is all there is to decide. -/
theorem of_ok_iff (h : (∃ a, x = .ok a) ↔ P) :
    Decides (fun _ => True) P (fun _ => True) x := by
  cases x with
  | ok a => exact .accepts (h.mp ⟨a, rfl⟩) trivial
  | error e => exact .refuses (fun holds => by simpa using h.mpr holds) trivial

theorem congr (h : Decides mild P Q x) (same : P ↔ P') : Decides mild P' Q x := by
  cases h with
  | accepts holds spec => exact .accepts (same.mp holds) spec
  | refuses fails harmless => exact .refuses (fun h => fails (same.mpr h)) harmless

theorem imp {Q' : α → Prop} (h : Decides mild P Q x) (weaker : ∀ a, Q a → Q' a) :
    Decides mild P Q' x := by
  cases h with
  | accepts holds spec => exact .accepts holds (weaker _ spec)
  | refuses fails harmless => exact .refuses fails harmless

theorem bind {R : β → Prop} {f : α → Except ε β} (h : Decides mild P Q x)
    (next : ∀ a, Q a → Decides mild P' R (f a)) : Decides mild (P ∧ P') R (x >>= f) := by
  cases h with
  | @accepts a holds spec =>
      show Decides mild (P ∧ P') R (f a)
      exact (next a spec).congr ⟨fun holds' => ⟨holds, holds'⟩, And.right⟩
  | refuses fails harmless => exact .refuses (fun both => fails both.1) harmless

theorem map {R : β → Prop} {f : α → β} (h : Decides mild P Q x) (spec : ∀ a, Q a → R (f a)) :
    Decides mild P R (x >>= fun a => .ok (f a)) := by
  cases h with
  | accepts holds found => exact .accepts holds (spec _ found)
  | refuses fails harmless => exact .refuses fails harmless

theorem guarded {c : Prop} [Decidable c] {e : ε} (harmless : mild e)
    (next : ¬ c → Decides mild P Q x) :
    Decides mild (¬ c ∧ P) Q (if c then .error e else x) := by
  split
  case isTrue h => exact .refuses (fun both => both.1 h) harmless
  case isFalse h => exact (next h).congr ⟨fun holds => ⟨h, holds⟩, And.right⟩

/-- A step decides its condition after all that comes before it in the list. -/
theorem foldlM {f : σ → α → Except ε σ} {P : List α → α → Prop} (Inv : List α → σ → Prop)
    {l : List α} {s : σ} (start : Inv [] s)
    (step : ∀ done a s, done ++ [a] <+: l → Inv done s →
      Decides mild (P done a) (Inv (done ++ [a])) (f s a)) :
    Decides mild (∀ done a, done ++ [a] <+: l → P done a) (Inv l) (l.foldlM f s) := by
  suffices go : ∀ rest done s, done ++ rest = l → Inv done s →
      Decides mild (∀ more a, more ++ [a] <+: rest → P (done ++ more) a) (Inv l)
        (rest.foldlM f s) from by
    simpa using go l [] s rfl start
  intro rest
  induction rest with
  | nil =>
      intro done s hdone inv
      rw [List.append_nil] at hdone
      exact .accepts (by simp) (hdone ▸ inv)
  | cons a rest ih =>
      intro done s hdone inv
      have hnext : done ++ [a] <+: l := ⟨rest, by rw [← hdone]; simp⟩
      have first := step done a s hnext inv
      have both := first.bind fun s' inv' => ih (done ++ [a]) s' (by rw [← hdone]; simp) inv'
      refine both.congr ⟨?_, ?_⟩
      · rintro ⟨holds, later⟩ more b hmore
        cases more with
        | nil =>
            have e : b = a := by simpa using hmore
            rw [List.append_nil, e]
            exact holds
        | cons c more =>
            obtain ⟨e, hrest⟩ := List.cons_prefix_cons.mp hmore
            subst e
            simpa using later more b hrest
      · intro all
        refine ⟨by simpa using all [] a (by simp), fun more b hmore => ?_⟩
        simpa using all (a :: more) b (List.cons_prefix_cons.mpr ⟨rfl, hmore⟩)

theorem mapM {f : α → Except ε β} {P : α → Prop} {R : α → β → Prop} {l : List α}
    (each : ∀ a, a ∈ l → Decides mild (P a) (R a) (f a)) :
    Decides mild (∀ a, a ∈ l → P a) (List.Forall₂ R l) (l.mapM f) := by
  induction l with
  | nil =>
      rw [List.mapM_nil]
      exact .accepts (by simp) .nil
  | cons a l ih =>
      rw [List.mapM_cons]
      have rest := ih fun b hb => each b (List.mem_cons_of_mem a hb)
      have both : Decides mild (P a ∧ ∀ b, b ∈ l → P b) (List.Forall₂ R (a :: l)) _ :=
        (each a List.mem_cons_self).bind fun b hb => rest.map fun bs hbs => .cons hb hbs
      exact both.congr (by simp)

end Decides

/-! ## Conditions on lists -/

/-- Keys are distinct when none of them is among those before it. -/
theorem nodup_map_iff {κ : Type} {key : α → κ} {l : List α} :
    (l.map key).Nodup ↔ ∀ done a, done ++ [a] <+: l → key a ∉ done.map key := by
  constructor
  · intro distinct done a hnext
    have hsub := distinct.sublist (hnext.sublist.map key)
    rw [List.map_append, List.nodup_append] at hsub
    exact fun hmem => hsub.2.2 _ hmem _ (by simp) rfl
  · intro apart
    induction l using List.reverseRecOn with
    | nil => exact .nil
    | append_singleton l a ih =>
        have before := ih fun done b hb => apart done b (hb.trans (List.prefix_append l [a]))
        have last := apart l a List.prefix_rfl
        rw [List.map_append, List.nodup_append]
        refine ⟨before, by simp, ?_⟩
        intro k hk k' hk' e
        rw [List.map_singleton, List.mem_singleton] at hk'
        exact last (hk' ▸ e ▸ hk)

theorem forall_mem_iff {P : α → Prop} {l : List α} :
    (∀ done a, done ++ [a] <+: l → P a) ↔ ∀ a, a ∈ l → P a := by
  constructor
  · intro all a ha
    obtain ⟨done, rest, rfl⟩ := List.append_of_mem ha
    exact all done a ⟨rest, by simp⟩
  · intro all done a hnext
    exact all a (mem_of_concat_isPrefix hnext)

end Outcome

/-! ## Errors and faults -/

/-- A mistake in the scenario, and no fault. -/
def Failure.IsError (e : Failure) : Prop := ∃ error, e = .error error

namespace Outcome

variable {α : Type} {P : Prop} {Q : α → Prop}

/-- A step that might meet a fault does not fail where it is known to succeed. -/
theorem Decides.orFault {x : Except Fault α} (h : ∃ a, x = .ok a ∧ Q a) :
    Decides Failure.IsError True Q (orFault x) := by
  obtain ⟨a, rfl, spec⟩ := h
  exact .accepts trivial spec

theorem Decides.orError {x : Except Error α} (h : Decides (fun _ => True) P Q x) :
    Decides Failure.IsError P Q (orError x) := by
  cases h with
  | accepts holds spec => exact .accepts holds spec
  | refuses fails _ => exact .refuses fails ⟨_, rfl⟩

end Outcome

end TagFlow
