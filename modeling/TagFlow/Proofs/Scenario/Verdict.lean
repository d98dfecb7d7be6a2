import TagFlow.Proofs.Policy.Flaws
import TagFlow.Proofs.Policy.RuleBook
import TagFlow.Proofs.Scenario.Accepts
import TagFlow.Proofs.Scenario.Lowering
import TagFlow.Scenario.Session

/-! # When a check ends in a fault

Once a scenario has a valid policy and a program, checking it meets a fault exactly when an
operation of the program has a flaw for the checker that the policy asks for.
-/

namespace TagFlow

namespace Scenario

theorem arity?_pos {s : Scenario} {name : String} {outputs : Nat}
    (declared : ∀ d, d ∈ s.operators → d.name = name → d.outputs ≠ 0)
    (h : s.arity? name = some outputs) : 0 < outputs := by
  rcases Option.or_eq_some_iff.mp h with h | ⟨-, h⟩
  · obtain ⟨d, hd, rfl⟩ := Option.map_eq_some_iff.mp h
    exact Nat.pos_of_ne_zero
      (declared d (List.mem_of_find?_eq_some hd) (by simpa using List.find?_some hd))
  · split at h
    · cases h
      exact Nat.one_pos
    · cases h

theorem PolicyDecl.validate_eq_ok {p : PolicyDecl} (h : p.validate = .ok ()) :
    (p.rules.map (·.name)).Nodup ∧ p.seedTags.Nodup ∧
      (p.checker = .budget → p.kind = .privacy) := by
  have sound : p.flaw? = none := by
    unfold validate at h
    split at h
    · cases h
    · assumption
  unfold flaw? at sound
  split at sound
  case isTrue => cases sound
  case isFalse =>
    split at sound
    case isTrue => cases sound
    case isFalse matching =>
      split at sound
      case isTrue => cases sound
      case isFalse =>
        split at sound
        case h_1 => cases sound
        case h_2 names =>
          refine ⟨firstRepeat?_eq_none_iff.mp names,
            firstRepeat?_eq_none_iff.mp (Option.map_eq_none_iff.mp sound), fun budget => ?_⟩
          by_contra other
          exact matching ⟨other, budget⟩

/-- Some operation of the module has a flaw for the checker of the policy. -/
def PolicyDecl.Flawed (p : PolicyDecl) (m : Module) : Prop :=
  match p.checker with
  | .egress => ∃ o, o ∈ m.operations ∧ o.operator = Sql.tagTransform ∧ Egress.Flaw p.rules m o
  | .rescan => ∃ o, o ∈ m.operations ∧ o.operator = Sql.tagTransform ∧ Rescan.Flaw p.rules o
  | .budget => ∃ o, o ∈ m.operations ∧ o.operator = Privacy.mechanism ∧ Privacy.Flaw o

end Scenario

namespace Session

open Scenario

theorem verdict_total_iff {p : PolicyDecl} {policy : Policy} (hpolicy : p.policy = .ok policy)
    {m : Module} (linked : m.Linked)
    (sized : ∀ o, o ∈ m.operations → o.operator = Sql.merge ∨ o.operator = Sql.tagTransform →
      0 < o.outputCount) :
    (∃ answer, verdict p policy m = .ok answer) ↔ ¬ p.Flawed m := by
  obtain ⟨⟨⟩, valid, hpolicy⟩ := Outcome.bind_eq_ok.mp hpolicy
  obtain ⟨names, seeds, privacy⟩ := p.validate_eq_ok valid
  have wrapped : ∀ {x : Except Fault Bool},
      (∃ answer, (do return some (← x)) = (.ok answer : Except Fault (Option Bool))) ↔
        ∃ answer, x = .ok answer := by
    intro x
    cases x <;> simp [bind, Except.bind, pure, Except.pure]
  unfold verdict PolicyDecl.Flawed
  cases checker : p.checker with
  | rescan =>
      obtain ⟨book, hbook, holds⟩ := RuleBook.ofRules_total names
      rw [show (do Rescan.check (← RuleBook.ofRules p.rules) m) = Rescan.check book m by
        rw [hbook]; rfl, Rescan.check_total_iff holds]
      simp only [not_exists, not_and]
  | egress =>
      rw [← bind_assoc, wrapped, Egress.check_total_iff linked names seeds sized]
      simp only [not_exists, not_and]
  | budget =>
      cases hpolicy
      rw [privacy checker, wrapped, Privacy.check_total_iff linked]
      simp only [not_exists, not_and]

theorem check_eq {d : Session} {policy : Policy} {p : Program}
    (hpolicy : d.scenario.policy.policy = .ok policy) (hprogram : d.scenario.program = .ok p)
    (held : d.built = none ∨ d.built = some p) :
    d.check.1 = orFault (verdict d.scenario.policy policy p.root) := by
  have ensured : d.ensureBuilt = .ok { d with built := some p } := by
    cases d with
    | mk scenario built =>
        rcases held with rfl | rfl
        · exact Outcome.bind_eq_ok.mpr ⟨p, hprogram, rfl⟩
        · rfl
  simp only [check, hpolicy, ensured]
  rfl

/-- Checking a scenario with a valid policy and a program meets a fault exactly when the program
has a flaw for the checker. Merges and tag transforms have outputs. -/
theorem check_faults_iff_flawed {d : Session} {p : Program}
    (valid : d.scenario.policy.validate = .ok ()) (hprogram : d.scenario.program = .ok p)
    (held : d.built = none ∨ d.built = some p)
    (outputs : ∀ o, o ∈ d.scenario.operators → o.name = Sql.merge ∨ o.name = Sql.tagTransform →
      o.outputs ≠ 0) :
    (∃ fault, d.check.1 = .error (.fault fault)) ↔ d.scenario.policy.Flawed p.root := by
  obtain ⟨policy, hpolicy⟩ : ∃ policy, d.scenario.policy.policy = .ok policy :=
    ⟨_, Outcome.bind_eq_ok.mpr ⟨(), valid, rfl⟩⟩
  have sized : ∀ o, o ∈ p.root.operations →
      o.operator = Sql.merge ∨ o.operator = Sql.tagTransform → 0 < o.outputCount := by
    intro o ho kind
    have harity := d.scenario.program_decides.spec_of_ok hprogram o ho
    exact arity?_pos (fun q hq e => outputs q hq (e ▸ kind)) harity
  have total := verdict_total_iff hpolicy (program_linked hprogram) sized
  rw [check_eq hpolicy hprogram held]
  cases answer : verdict d.scenario.policy policy p.root with
  | ok found =>
      have flawless := total.mp ⟨found, answer⟩
      simp [orFault, Except.mapError, flawless]
  | error fault =>
      have flawed : d.scenario.policy.Flawed p.root := by
        by_contra flawless
        obtain ⟨found, h⟩ := total.mpr flawless
        rw [answer] at h
        cases h
      simp [orFault, Except.mapError, flawed]

end Session

/-! ## A scenario with a missing rule -/

namespace Session.Unruled

def scenario (rules : List PolicyRule) : Scenario where
  operators := [⟨Sql.merge, 2⟩]
  blocks := [{
    name := "main"
    operations := [{
      results := ["%a"]
      operator := Sql.tagTransform
      attributes := .ofList [(Sql.ruleName, .text "Release")]
      inputs := [.constant 1] }] }]
  policy := { kind := .sql, checker := .egress, rules }

def release : PolicyRule := ⟨"Release", .removeConfidentiality, "secret", []⟩

/-- Without the rule the check ends in a fault, and with it there is no flaw. -/
theorem check_faults_iff_flawed_release :
    (∃ fault, (check ⟨scenario [], none⟩).1 = .error (.fault fault)) ∧
      ∃ p, (scenario [release]).program = .ok p ∧
        ¬ (scenario [release]).policy.Flawed p.root := by
  have start : ∃ p, (scenario []).program = .ok p ∧ ∃ o, o ∈ p.root.operations ∧
      o.operator = Sql.tagTransform ∧ o.find? Sql.ruleName = some (.text "Release") := by
    decide +kernel
  obtain ⟨p, hp, o, ho, transform, invokes⟩ := start
  have missing : Egress.Flaw [] p.root o :=
    .misuse (.unknown invokes (by decide +kernel) (by simp))
  refine ⟨(check_faults_iff_flawed (d := ⟨scenario [], none⟩) (by decide +kernel) hp (.inl rfl)
    (by decide +kernel)).mpr ⟨o, ho, transform, missing⟩, ?_⟩
  have found : ∃ p, (scenario [release]).program = .ok p ∧ True := by decide +kernel
  obtain ⟨p, hp, -⟩ := found
  refine ⟨p, hp, fun flawed => ?_⟩
  obtain ⟨fault, h⟩ := (check_faults_iff_flawed (d := ⟨scenario [release], none⟩)
    (by decide +kernel) hp (.inl rfl) (by decide +kernel)).mpr flawed
  have passes : (check ⟨scenario [release], none⟩).1 = .ok (some true) := by decide +kernel
  rw [passes] at h
  cases h

end Session.Unruled

end TagFlow
