import Mathlib.Data.List.Chain
import TagFlow.Proofs.Policy.RescanOrder
import TagFlow.Proofs.Policy.RuleBook
import TagFlow.Proofs.Program.Dataflow

/-! # Leaks found by rescanning

A tag leaks along a path that starts at a transform adding it, goes on through merges and
through transforms that do not remove it, and ends at an output. A path always makes the
check fail. The converse needs that no cycle keeps a tag alive by itself: that is so
without cycles, and it is so when removals are unguarded, since then no tag that the passes
have spread is ever taken back.
-/

namespace TagFlow

namespace Rescan

/-- A tag transform whose rule adds the tag and fires. -/
def Introduces (book : RuleBook) (marks : MarkMap) (tag : Tag) (o : Operation) : Prop :=
  o.operator = Sql.tagTransform ∧ Alters book marks o .addConfidentiality tag

/-- The second operation passes on the tag it finds on the first one's result. -/
def Forwards (book : RuleBook) (marks : MarkMap) (tag : Tag) (o p : Operation) : Prop :=
  (p.operator = Sql.merge ∧ Value.default o.id ∈ p.inputs) ∨
    (p.operator = Sql.tagTransform ∧ p.inputs[0]? = some (.default o.id) ∧
      ¬ Alters book marks p .removeConfidentiality tag)

/-- A way of the tag from a transform that adds it to the given operation. -/
structure Trail (book : RuleBook) (m : Module) (marks : MarkMap) (tag : Tag)
    (path : List Operation) (last : Operation) : Prop where
  inside : ∀ o, o ∈ path → o ∈ m.operations
  source : ∃ o, path.head? = some o ∧ Introduces book marks tag o
  links : path.IsChain (Forwards book marks tag)
  last : path.getLast? = some last

/-- A trail to an operation whose result an output reads. -/
def LeakPath (book : RuleBook) (m : Module) (marks : MarkMap) (tag : Tag)
    (path : List Operation) : Prop :=
  ∃ last, Trail book m marks tag path last ∧
    ∃ out, out ∈ m.operations ∧ out.operator = Sql.output ∧ Value.default last.id ∈ out.inputs

variable {book : RuleBook} {m : Module} {marks : MarkMap} {tag : Tag} {o p : Operation}
  {path : List Operation}

/-! ## Building trails -/

theorem Trail.single (ho : o ∈ m.operations) (h : Introduces book marks tag o) :
    Trail book m marks tag [o] o where
  inside q hq := by
    rw [List.mem_singleton.mp hq]
    exact ho
  source := ⟨o, rfl, h⟩
  links := .singleton o
  last := rfl

theorem Trail.concat (h : Trail book m marks tag path o) (hp : p ∈ m.operations)
    (hf : Forwards book marks tag o p) : Trail book m marks tag (path ++ [p]) p where
  inside q hq := by
    rcases List.mem_append.mp hq with hq | hq
    · exact h.inside q hq
    · rw [List.mem_singleton.mp hq]
      exact hp
  source := by
    obtain ⟨s, hs, hi⟩ := h.source
    exact ⟨s, by rw [List.head?_append, hs]; rfl, hi⟩
  links := by
    apply List.IsChain.append h.links (.singleton p)
    intro x hx y hy
    rw [h.last] at hx
    cases hx
    cases hy
    exact hf
  last := by simp

theorem Trail.mono {marks' : MarkMap} (hu : Unguarded book) (hb : Below marks marks')
    (h : Trail book m marks tag path o) : Trail book m marks' tag path o where
  inside := h.inside
  source := by
    obtain ⟨s, hs, hop, hadd⟩ := h.source
    exact ⟨s, hs, hop, hb.alters hadd⟩
  links := by
    apply h.links.imp
    intro q r hqr
    rcases hqr with hm | ⟨hop, hin, hkept⟩
    · exact .inl hm
    · exact .inr ⟨hop, hin, fun hrem => hkept (alters_remove_of_unguarded hu hrem)⟩
  last := h.last

/-! ## A trail carries its tag -/

theorem Introduces.receives (h : Introduces book marks tag o) : Receives book marks o tag :=
  .inr ⟨h.1, .inl h.2⟩

theorem Forwards.receives (h : Forwards book marks tag o p)
    (ho : tag ∈ secrecyOf marks (.default o.id)) : Receives book marks p tag := by
  rcases h with ⟨hop, hin⟩ | ⟨hop, hin, hkept⟩
  · exact .inl ⟨hop, _, hin, ho⟩
  · exact .inr ⟨hop, .inr ⟨⟨_, hin, ho⟩, hkept⟩⟩

theorem Receives.mem_operators (h : Receives book marks o tag) : o.operator ∈ Sql.operators := by
  rcases h with ⟨hop, -⟩ | ⟨hop, -⟩ <;> simp [Sql.operators, hop]

theorem Trail.mem_secrecyOf (solved : ∀ o, o ∈ m.operations → Solved book marks o)
    (h : Trail book m marks tag path o) : tag ∈ secrecyOf marks (.default o.id) := by
  have arrive : ∀ p, p ∈ m.operations → Receives book marks p tag →
      tag ∈ secrecyOf marks (.default p.id) := by
    intro p hp hr
    exact ((solved p hp).mem_secrecyOf hr.mem_operators).mpr hr
  have go : ∀ (rest : List Operation) (p : Operation), (∀ q, q ∈ p :: rest → q ∈ m.operations) →
      (p :: rest).IsChain (Forwards book marks tag) → tag ∈ secrecyOf marks (.default p.id) →
      (p :: rest).getLast? = some o → tag ∈ secrecyOf marks (.default o.id) := by
    intro rest
    induction rest with
    | nil =>
        intro p _ _ hp hlast
        cases hlast
        exact hp
    | cons q rest ih =>
        intro p inside links hp hlast
        have hpq := List.isChain_cons_cons.mp links
        have hq := arrive q (inside q (by simp)) (hpq.1.receives hp)
        exact ih q (fun r hr => inside r (List.mem_cons_of_mem p hr)) hpq.2 hq
          (by simpa using hlast)
  obtain ⟨s, hs, hi⟩ := h.source
  cases path with
  | nil => cases hs
  | cons first rest =>
      cases hs
      have hfirst := arrive s (h.inside s (by simp)) hi.receives
      exact go rest s h.inside h.links hfirst h.last

/-! ## A tag has a trail -/

theorem Receives.origin (placed : Placed m marks) (ho : o ∈ m.operations)
    (h : Receives book marks o tag) :
    Introduces book marks tag o ∨
      ∃ p, p ∈ m.operations ∧ p.operator ∈ Sql.operators ∧ m.Feeds p.id o.id ∧
        tag ∈ secrecyOf marks (.default p.id) ∧ Forwards book marks tag p o := by
  have place : ∀ v, tag ∈ secrecyOf marks v →
      ∃ p, p ∈ m.operations ∧ p.operator ∈ Sql.operators ∧ v = .default p.id := by
    intro v hv
    obtain ⟨new, hf, -⟩ := exists_find?_of_mem_secrecyOf hv
    exact placed v new hf
  rcases h with ⟨hop, v, hin, hv⟩ | ⟨hop, hadd | ⟨⟨v, hin, hv⟩, hkept⟩⟩
  · obtain ⟨p, hp, hpop, rfl⟩ := place v hv
    exact .inr ⟨p, hp, hpop, Module.feeds_of_reads ho hin, hv, .inl ⟨hop, hin⟩⟩
  · exact .inl ⟨hop, hadd⟩
  · obtain ⟨p, hp, hpop, rfl⟩ := place v hv
    have reads := Module.feeds_of_reads ho (List.mem_of_getElem? hin)
    exact .inr ⟨p, hp, hpop, reads, hv, .inr ⟨hop, hin, hkept⟩⟩

def Traced (book : RuleBook) (m : Module) (marks : MarkMap) : Prop :=
  ∀ o tag, o ∈ m.operations → o.operator ∈ Sql.operators →
    tag ∈ secrecyOf marks (.default o.id) → ∃ path, Trail book m marks tag path o

theorem traced_of_acyclic (acyclic : m.Acyclic) (placed : Placed m marks)
    (solved : ∀ o, o ∈ m.operations → Solved book marks o) : Traced book m marks := by
  suffices go : ∀ id o tag, o.id = id → o ∈ m.operations → o.operator ∈ Sql.operators →
      tag ∈ secrecyOf marks (.default o.id) → ∃ path, Trail book m marks tag path o from
    fun o tag => go o.id o tag rfl
  intro id
  induction id using acyclic.wellFounded.induction with
  | _ id ih =>
      intro o tag hid ho hop htag
      have received := ((solved o ho).mem_secrecyOf hop).mp htag
      rcases received.origin placed ho with hi | ⟨p, hp, hpop, hfeeds, hptag, hpo⟩
      · exact ⟨[o], .single ho hi⟩
      · obtain ⟨path, htrail⟩ := ih p.id (hid ▸ hfeeds) p tag rfl hp hpop hptag
        exact ⟨path ++ [o], htrail.concat ho hpo⟩

theorem Traced.insert (hu : Unguarded book) (distinct : (m.operations.map (·.id)).Nodup)
    (placed : Placed m marks) (rising : Rising book m marks) (h : Traced book m marks)
    (ho : o ∈ m.operations) {new : Marks} (ht : transfer book marks o = .ok (some new)) :
    Traced book m (marks.insert (.default o.id) new) := by
  have grown := rising.below_insert ho ht
  intro p tag hp hpop htag
  by_cases hid : p.id = o.id
  · have same : p = o := List.inj_on_of_nodup_map distinct hp ho hid
    subst same
    rw [secrecyOf_of_find? (OrdMap.find?_insert_self _ _ _), mem_secrecy_transfer ht] at htag
    rcases htag.origin placed ho with hi | ⟨q, hq, hqop, -, hqtag, hqp⟩
    · exact ⟨[p], (Trail.single ho hi).mono hu grown⟩
    · obtain ⟨path, htrail⟩ := h q tag hq hqop hqtag
      exact ⟨path ++ [p], (htrail.concat ho hqp).mono hu grown⟩
  · have hne : Value.default p.id ≠ Value.default o.id := by
      simpa [Value.default] using hid
    have htag' : tag ∈ secrecyOf marks (.default p.id) := by
      simpa [secrecyOf, OrdMap.find?_insert_of_ne marks new hne] using htag
    obtain ⟨path, htrail⟩ := h p tag hp hpop htag'
    exact ⟨path, htrail.mono hu grown⟩

theorem traced_of_unguarded (hu : Unguarded book) (distinct : (m.operations.map (·.id)).Nodup)
    {limit : Nat} {f : Fixpoint} (h : run book m limit {} = .ok (some f)) :
    Traced book m f.marks := by
  have kept := run_keeps
    (fun marks => Placed m marks ∧ Rising book m marks ∧ Traced book m marks) ?_ ?_ h
  · exact kept.2.2
  · intro o marks new ho inv ht
    obtain ⟨placed, rising, traced⟩ := inv
    exact ⟨placed.insert ho ht, rising.insert hu distinct ho ht,
      traced.insert hu distinct placed rising ho ht⟩
  · refine ⟨Placed.empty, Rising.empty, ?_⟩
    intro o tag _ _ htag
    simp [secrecyOf] at htag

theorem unguarded_of_rules {rules : List PolicyRule} (hbook : RuleBook.ofRules rules = .ok book)
    (h : ∀ rule, rule ∈ rules → rule.action = .removeConfidentiality → rule.preconditions = []) :
    Unguarded book := by
  intro name entry he hact argument
  obtain ⟨rule, hr, -, hnum⟩ := (RuleBook.holds_ofRules hbook).rule name entry he
  rw [hnum.action] at hact
  rw [hnum.required.absent argument, h rule hr hact]
  intro p hp
  cases hp

/-! ## The check -/

/-- A leak path makes the check fail. Conversely, with distinct operation ids, a failed check
has a leak path when there is no cycle or no rule that removes a tag has preconditions. -/
theorem complies_eq_false_leakPath {rules : List PolicyRule} {limit : Nat} {f : Fixpoint}
    (hbook : RuleBook.ofRules rules = .ok book) (h : run book m limit {} = .ok (some f)) :
    ((∃ tag path, LeakPath book m f.marks tag path) → complies m f = false) ∧
      ((m.operations.map (·.id)).Nodup →
        (m.Acyclic ∨ ∀ rule, rule ∈ rules → rule.action = .removeConfidentiality →
          rule.preconditions = []) →
        complies m f = false → ∃ tag path, LeakPath book m f.marks tag path) := by
  have solved := run_solved h
  have placed := run_placed h
  rw [complies_eq_false_iff]
  constructor
  · intro ⟨tag, path, last, htrail, out, hout, hop, hin⟩
    exact ⟨out, hout, hop, _, hin, tag, htrail.mem_secrecyOf solved⟩
  · intro distinct tame ⟨out, hout, hop, v, hin, tag, htag⟩
    have traced : Traced book m f.marks := by
      rcases tame with acyclic | unguarded
      · exact traced_of_acyclic acyclic placed solved
      · exact traced_of_unguarded (unguarded_of_rules hbook unguarded) distinct h
    obtain ⟨new, hf, -⟩ := exists_find?_of_mem_secrecyOf htag
    obtain ⟨last, hlast, hlop, rfl⟩ := placed v new hf
    obtain ⟨path, htrail⟩ := traced last tag hlast hlop htag
    exact ⟨tag, path, last, htrail, out, hout, hop, hin⟩

/-! ## A leak through a loop, and one through a release that waits -/

namespace Loop

/-- The secret enters a loop of a merge and a transform, and the output reads the loop. -/
def root : Module :=
  ⟨0, [⟨0, none, .empty, .empty, .empty,
    [.standalone 0 Sql.output [] [.result 1 0],
      .standalone 1 Sql.merge [(Sql.controlStart, .integer 2)] [.result 2 0, .result 4 0],
      .standalone 2 Sql.tagTransform [(Sql.ruleName, .text "scrub")] [.result 1 0],
      .standalone 3 Sql.literal [] [],
      .standalone 4 Sql.tagTransform [(Sql.ruleName, .text "classify")] [.result 3 0]]⟩]⟩

def rules : List PolicyRule :=
  [⟨"classify", .addConfidentiality, "secret", []⟩, ⟨"scrub", .removeConfidentiality, "draft", []⟩]

/-- The release of the secret asks for a review of the operation with the given id. -/
def released (reviewer : OperationId) : Module :=
  ⟨0, [⟨0, none, .empty, .empty, .empty,
    [.standalone 0 Sql.literal [] [],
      .standalone 1 Sql.tagTransform [(Sql.ruleName, .text "classify")] [.result 0 0],
      .standalone 2 Sql.tagTransform [(Sql.ruleName, .text "review")] [.result 0 0],
      .standalone 3 Sql.tagTransform
        [(Sql.ruleName, .text "release"), ("reviewer", .integer 1)] [.result 1 0, .result reviewer 0],
      .standalone 4 Sql.output [] [.result 3 0]]⟩]⟩

def guarded : List PolicyRule :=
  [⟨"classify", .addConfidentiality, "secret", []⟩, ⟨"review", .addIntegrity, "reviewed", []⟩,
    ⟨"release", .removeConfidentiality, "secret", [⟨"reviewer", "reviewed"⟩]⟩]

/-- The secret leaks through the loop, and past a release whose reviewer is the literal. It does
not leak where the reviewer is the reviewed value. -/
theorem complies_eq_false_leakPath_root :
    ((root.operations.map (·.id)).Nodup ∧
      (∀ rule, rule ∈ rules → rule.action = .removeConfidentiality → rule.preconditions = []) ∧
      ∃ book f, RuleBook.ofRules rules = .ok book ∧ fixpoint book root = .ok (some f) ∧
        complies root f = false ∧ ∃ tag path, LeakPath book root f.marks tag path) ∧
      ∃ book, RuleBook.ofRules guarded = .ok book ∧
        (((released 0).operations.map (·.id)).Nodup ∧ (released 0).Acyclic ∧
          ∃ f, fixpoint book (released 0) = .ok (some f) ∧ complies (released 0) f = false ∧
            ∃ tag path, LeakPath book (released 0) f.marks tag path) ∧
        ∃ f, fixpoint book (released 2) = .ok (some f) ∧ complies (released 2) f = true ∧
          ¬ ∃ tag path, LeakPath book (released 2) f.marks tag path := by
  constructor
  · have distinct : (root.operations.map (·.id)).Nodup := by decide
    have unguarded : ∀ rule, rule ∈ rules → rule.action = .removeConfidentiality →
        rule.preconditions = [] := by decide
    obtain ⟨book, f, hbook, hrun, fails⟩ : ∃ book f, RuleBook.ofRules rules = .ok book ∧
        fixpoint book root = .ok (some f) ∧ complies root f = false := ⟨_, _, rfl, rfl, rfl⟩
    exact ⟨distinct, unguarded, book, f, hbook, hrun, fails,
      (complies_eq_false_leakPath hbook hrun).2 distinct (.inr unguarded) fails⟩
  · have distinct : ((released 0).operations.map (·.id)).Nodup := by decide
    have acyclic : (released 0).Acyclic :=
      (Module.linked_acyclic_of_rank id distinct (by unfold Module.Flat; decide) (by decide)).2
    obtain ⟨book, f, g, hbook, waits, fails, acts, holds⟩ : ∃ book f g,
        RuleBook.ofRules guarded = .ok book ∧
        fixpoint book (released 0) = .ok (some f) ∧ complies (released 0) f = false ∧
        fixpoint book (released 2) = .ok (some g) ∧ complies (released 2) g = true :=
      ⟨_, _, _, rfl, rfl, rfl, rfl, rfl⟩
    refine ⟨book, hbook, ⟨distinct, acyclic, f, waits, fails, ?_⟩, g, acts, holds, ?_⟩
    · exact (complies_eq_false_leakPath hbook waits).2 distinct (.inl acyclic) fails
    · intro leaks
      have fails := (complies_eq_false_leakPath hbook acts).1 leaks
      rw [holds] at fails
      cases fails

end Loop

end Rescan

end TagFlow
