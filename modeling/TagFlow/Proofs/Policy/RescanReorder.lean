import TagFlow.Proofs.Policy.Leak
import TagFlow.Proofs.Policy.RescanLoops

/-! # Rescans in another order

Two orders of the same operations settle on the same integrity, so in the end the same rules
act. What they settle on in secrecy is the same as well, apart from tags that keep themselves
alive in a loop: in one order a tag passes a removal before the roles of the removal are
filled, enters a loop behind it and is never taken back, and in the other it does not pass.
-/

namespace TagFlow

namespace Rescan

open Relation (TransGen ReflTransGen)

/-- The first operation hands the tag to the second one, which keeps it. -/
def Keeps (book : RuleBook) (m : Module) (marks : MarkMap) (tag : Tag) (o p : Operation) : Prop :=
  o ∈ m.operations ∧ p ∈ m.operations ∧ Forwards book marks tag o p

/-- A removal that has to wait, acts in the end, and could have met the tag before: the tag has
a trail to what it transforms. -/
def Leaky (book : RuleBook) (m : Module) (marks : MarkMap) (tag : Tag) (r : Operation) : Prop :=
  r ∈ m.operations ∧ Waits book tag r ∧ Alters book marks r .removeConfidentiality tag ∧
    ∃ path p, Trail book m marks tag path p ∧ r.inputs[0]? = some (.default p.id)

/-- The tag may have come from such a removal, past no removal that always acts. -/
def Escaped (book : RuleBook) (m : Module) (marks : MarkMap) (tag : Tag) (o : Operation) : Prop :=
  ∃ r, Leaky book m marks tag r ∧
    ReflTransGen (fun p q => Hands m p q ∧ ¬ Removes book tag q []) r o

/-- What has escaped enters a loop that keeps it, and comes to the value from there. -/
def Circulates (book : RuleBook) (m : Module) (marks : MarkMap) (tag : Tag) (v : Value) : Prop :=
  ∃ c o, Escaped book m marks tag c ∧ TransGen (Keeps book m marks tag) c c ∧
    ReflTransGen (Keeps book m marks tag) c o ∧ v = .default o.id

variable {book : RuleBook} {rules : List PolicyRule} {m m' : Module} {x y : MarkMap} {tag : Tag}
  {o p : Operation}

theorem Forwards.hands (h : Forwards book x tag o p) (ho : o ∈ m.operations)
    (hp : p ∈ m.operations) : Hands m o p := by
  rcases h with merge | ⟨hop, hin, -⟩
  · exact ⟨ho, hp, .inl merge⟩
  · exact ⟨ho, hp, .inr ⟨hop, hin⟩⟩

/-- Behind a removal that acts, a loop that keeps the tag is one that meets no removal. -/
theorem not_circulates_of_tame (tame : Tame book m) (v : Value) :
    ¬ Circulates book m x tag v := by
  rintro ⟨c, o, ⟨r, ⟨hr, waits, acts, -⟩, reach⟩, loop, -, -⟩
  have behind : ReflTransGen (Hands m) r c := ReflTransGen.mono (fun _ _ edge => edge.1) r c reach
  refine tame tag r hr waits c behind (TransGen.mono ?_ c c loop)
  obtain ⟨_, -, removes⟩ := waits
  rintro p q ⟨hp, hq, forwards⟩
  have kept : q.operator = Sql.tagTransform → ¬ Alters book x q .removeConfidentiality tag := by
    intro hop
    rcases forwards with ⟨hmerge, -⟩ | ⟨-, -, kept⟩
    · rw [hop] at hmerge
      exact absurd hmerge (by decide)
    · exact kept
  refine ⟨forwards.hands hp hq, ?_, ?_⟩
  · rintro rfl
    exact kept removes.operator acts
  · intro always
    exact kept always.operator (always.alters x)

/-! ## Integrity -/

theorem Solved.mem_integrityOf (h : Solved book x o) (hop : o.operator ∈ Sql.operators) :
    tag ∈ integrityOf x (.default o.id) ↔ Vouches book x o tag := by
  rcases h with h | ⟨new, ht, hf⟩
  · exact absurd hop (transfer_eq_none h)
  · rw [integrityOf_of_find? hf, mem_integrity_transfer ht]

/-- The second marks have all the integrity of the first. -/
def Vouched (x y : MarkMap) : Prop :=
  ∀ v tag, tag ∈ integrityOf x v → tag ∈ integrityOf y v

theorem Vouched.insert (holds : book.Holds rules) (solved : Solved book y o) (h : Vouched x y)
    {new : Marks} (ht : transfer book x o = .ok (some new)) :
    Vouched (x.insert (.default o.id) new) y := by
  intro v tag htag
  by_cases hv : v = .default o.id
  · subst hv
    rw [integrityOf_of_find? (OrdMap.find?_insert_self _ _ _), mem_integrity_transfer ht] at htag
    rw [solved.mem_integrityOf (mem_operators_of_transfer ht)]
    obtain ⟨hop, alters | ⟨named, w, hw, hmem⟩⟩ := htag
    · exact ⟨hop, .inl (alters.mono holds h)⟩
    · exact ⟨hop, .inr ⟨named, w, hw, h w tag hmem⟩⟩
  · refine h v tag ?_
    simpa [integrityOf, OrdMap.find?_insert_of_ne x new hv] using htag

/-- In whatever order the operations are visited, integrity stays within every solution. -/
theorem run_vouched (holds : book.Holds rules) (solved : ∀ o, o ∈ m.operations → Solved book y o)
    (reordered : m'.operations.Perm m.operations) {limit : Nat} {f : Fixpoint}
    (h : run book m' limit {} = .ok (some f)) : Vouched f.marks y := by
  refine run_keeps (Vouched · y) ?_ ?_ h
  · intro o x new ho kept ht
    exact kept.insert holds (solved o (reordered.mem_iff.mp ho)) ht
  · intro v tag htag
    simp [integrityOf] at htag

/-! ## Where a tag comes from -/

/-- Every tag has a trail, judged by the marks `y`, or has escaped. -/
def Sourced (book : RuleBook) (m : Module) (y x : MarkMap) : Prop :=
  ∀ v tag, tag ∈ secrecyOf x v → ∃ o, o ∈ m.operations ∧ v = .default o.id ∧
    ((∃ path, Trail book m y tag path o) ∨ Escaped book m y tag o)

/-- What an operation keeps it keeps in the end, or else it is a removal that waits. -/
theorem Sourced.receives (holds : book.Holds rules) (vouched : Vouched x y)
    (h : Sourced book m y x) (hp : p ∈ m.operations) (received : Receives book x p tag) :
    (∃ path, Trail book m y tag path p) ∨ Escaped book m y tag p := by
  rcases received with ⟨hop, v, hin, hv⟩ | ⟨hop, adds | ⟨⟨v, hin, hv⟩, kept⟩⟩
  · obtain ⟨o, ho, rfl, ⟨path, trail⟩ | ⟨r, leaky, reach⟩⟩ := h v tag hv
    · exact .inl ⟨path ++ [p], trail.concat hp (.inl ⟨hop, hin⟩)⟩
    · refine .inr ⟨r, leaky, reach.tail ⟨⟨ho, hp, .inl ⟨hop, hin⟩⟩, ?_⟩⟩
      intro removes
      have htransform := removes.operator
      rw [hop] at htransform
      exact absurd htransform (by decide)
  · exact .inl ⟨[p], .single hp ⟨hop, adds.mono holds vouched⟩⟩
  · obtain ⟨o, ho, rfl, ⟨path, trail⟩ | ⟨r, leaky, reach⟩⟩ := h v tag hv
    · by_cases acts : Alters book y p .removeConfidentiality tag
      · obtain ⟨roles, removes⟩ := removes_of_alters hop acts
        have waits : roles ≠ [] := by
          rintro rfl
          exact kept (removes.alters x)
        exact .inr ⟨p, ⟨hp, ⟨roles, waits, removes⟩, acts, path, o, trail, hin⟩, .refl⟩
      · exact .inl ⟨path ++ [p], trail.concat hp (.inr ⟨hop, hin, acts⟩)⟩
    · refine .inr ⟨r, leaky, reach.tail ⟨⟨ho, hp, .inr ⟨hop, hin⟩⟩, ?_⟩⟩
      intro always
      exact kept (always.alters x)

theorem Sourced.insert (holds : book.Holds rules) (vouched : Vouched x y)
    (h : Sourced book m y x) (ho : o ∈ m.operations) {new : Marks}
    (ht : transfer book x o = .ok (some new)) :
    Sourced book m y (x.insert (.default o.id) new) := by
  intro v tag htag
  by_cases hv : v = .default o.id
  · rw [hv, secrecyOf_of_find? (OrdMap.find?_insert_self _ _ _), mem_secrecy_transfer ht] at htag
    exact ⟨o, ho, hv, h.receives holds vouched ho htag⟩
  · refine h v tag ?_
    simpa [secrecyOf, OrdMap.find?_insert_of_ne x new hv] using htag

theorem run_sourced (holds : book.Holds rules) (solved : ∀ o, o ∈ m.operations → Solved book y o)
    (reordered : m'.operations.Perm m.operations) {limit : Nat} {f : Fixpoint}
    (h : run book m' limit {} = .ok (some f)) : Sourced book m y f.marks := by
  have kept := run_keeps (fun x => Vouched x y ∧ Sourced book m y x) ?_ ?_ h
  · exact kept.2
  · rintro o x new ho ⟨vouched, sourced⟩ ht
    have inside := reordered.mem_iff.mp ho
    exact ⟨vouched.insert holds (solved o inside) ht, sourced.insert holds vouched inside ht⟩
  · constructor
    · intro v tag htag
      simp [integrityOf] at htag
    · intro v tag htag
      simp [secrecyOf] at htag

/-! ## Where two solutions differ -/

def ActAlike (book : RuleBook) (x y : MarkMap) : Prop :=
  ∀ o action tag, Alters book x o action tag ↔ Alters book y o action tag

theorem ActAlike.symm (alike : ActAlike book x y) : ActAlike book y x := fun o action tag =>
  (alike o action tag).symm

theorem Forwards.alike (alike : ActAlike book x y) (h : Forwards book x tag o p) :
    Forwards book y tag o p := by
  rcases h with merge | ⟨hop, hin, kept⟩
  · exact .inl merge
  · exact .inr ⟨hop, hin, fun removes => kept ((alike p _ tag).mpr removes)⟩

theorem Trail.alike (alike : ActAlike book x y) {path : List Operation}
    (h : Trail book m x tag path o) : Trail book m y tag path o where
  inside := h.inside
  source := by
    obtain ⟨s, hs, hop, adds⟩ := h.source
    exact ⟨s, hs, hop, (alike s _ tag).mp adds⟩
  links := h.links.imp fun _ _ forwards => forwards.alike alike
  last := h.last

theorem Circulates.alike (alike : ActAlike book x y) {v : Value}
    (h : Circulates book m x tag v) : Circulates book m y tag v := by
  obtain ⟨c, o, ⟨r, ⟨hr, waits, acts, path, p, trail, hin⟩, reach⟩, loop, lead, hv⟩ := h
  have keeps : ∀ p q, Keeps book m x tag p q → Keeps book m y tag p q := fun _ _ edge =>
    ⟨edge.1, edge.2.1, edge.2.2.alike alike⟩
  have leaky : Leaky book m y tag r :=
    ⟨hr, waits, (alike r _ tag).mp acts, path, p, trail.alike alike, hin⟩
  exact ⟨c, o, ⟨r, leaky, reach⟩, TransGen.mono keeps c c loop, ReflTransGen.mono keeps c o lead,
    hv⟩

/-- What one solution has and the other lacks comes from an operation of which this is true as
well, so in the end from a loop of such operations. -/
theorem exists_loop_of_differ (distinct : (m.operations.map (·.id)).Nodup)
    (alike : ActAlike book x y) (placed : Placed m x)
    (hx : ∀ o, o ∈ m.operations → Solved book x o) (hy : ∀ o, o ∈ m.operations → Solved book y o)
    (ho : o ∈ m.operations) (has : tag ∈ secrecyOf x (.default o.id))
    (lacks : tag ∉ secrecyOf y (.default o.id)) :
    ∃ c, tag ∈ secrecyOf x (.default c.id) ∧ tag ∉ secrecyOf y (.default c.id) ∧
      TransGen (Keeps book m y tag) c c ∧ ReflTransGen (Keeps book m y tag) c o := by
  let Differs : Operation → Prop := fun p =>
    tag ∈ secrecyOf x (.default p.id) ∧ tag ∉ secrecyOf y (.default p.id)
  let Before : Operation → Operation → Prop := fun p q => Differs p ∧ Keeps book m y tag p q
  have before : ∀ q, q ∈ m.operations → Differs q → ∃ p, p ∈ m.operations ∧ Before p q := by
    rintro q hq ⟨has, lacks⟩
    have hop : q.operator ∈ Sql.operators := by
      obtain ⟨new, hf, -⟩ := exists_find?_of_mem_secrecyOf has
      obtain ⟨q', hq', hop, hid⟩ := placed _ new hf
      rwa [List.inj_on_of_nodup_map distinct hq hq' (by simpa [Value.default] using hid)]
    rw [(hx q hq).mem_secrecyOf hop] at has
    rw [(hy q hq).mem_secrecyOf hop] at lacks
    rcases has.origin placed hq with ⟨htransform, adds⟩ | ⟨p, hp, -, -, hptag, forwards⟩
    · exact absurd (.inr ⟨htransform, .inl ((alike q _ tag).mp adds)⟩) lacks
    · have forwards' := forwards.alike alike
      exact ⟨p, hp, ⟨hptag, fun h => lacks (forwards'.receives h)⟩, hp, hq, forwards'⟩
  by_contra none
  have acc : Acc Before o := by
    apply acc_of_finite (fun _ _ edge => edge.2.2.1)
    intro c reach loop
    obtain ⟨_, first, -⟩ := TransGen.head'_iff.mp loop
    exact none ⟨c, first.1.1, first.1.2, TransGen.mono (fun _ _ edge => edge.2) c c loop,
      ReflTransGen.mono (fun _ _ edge => edge.2) c o reach⟩
  have differs : Differs o := ⟨has, lacks⟩
  clear has lacks none
  induction acc with
  | intro q _ ih =>
      obtain ⟨p, hp, edge⟩ := before q ho differs
      exact ih p edge hp edge.1

theorem circulates_of_differ (distinct : (m.operations.map (·.id)).Nodup)
    (alike : ActAlike book x y) (placed : Placed m x) (sourced : Sourced book m y x)
    (hx : ∀ o, o ∈ m.operations → Solved book x o) (hy : ∀ o, o ∈ m.operations → Solved book y o)
    {v : Value} (has : tag ∈ secrecyOf x v) (lacks : tag ∉ secrecyOf y v) :
    Circulates book m y tag v := by
  obtain ⟨o, ho, rfl, -⟩ := sourced v tag has
  obtain ⟨c, hasC, lacksC, loop, reach⟩ :=
    exists_loop_of_differ distinct alike placed hx hy ho has lacks
  have hc : c ∈ m.operations := by
    obtain ⟨_, first, -⟩ := TransGen.head'_iff.mp loop
    exact first.1
  obtain ⟨c', hc', hid, ⟨path, trail⟩ | escaped⟩ := sourced _ tag hasC
  · rw [hid] at lacksC
    exact absurd (trail.mem_secrecyOf hy) lacksC
  · have same : c = c' :=
      List.inj_on_of_nodup_map distinct hc hc' (by simpa [Value.default] using hid)
    exact ⟨c, o, same ▸ escaped, loop, reach, rfl⟩

/-! ## Two orders -/

theorem complies_eq_of_alike (reordered : m'.operations.Perm m.operations) {f f' : Fixpoint}
    (h : ∀ out, out ∈ m.operations → out.operator = Sql.output → ∀ v, v ∈ out.inputs → ∀ tag,
      (tag ∈ secrecyOf f.marks v ↔ tag ∈ secrecyOf f'.marks v)) :
    complies m f = complies m' f' := by
  rw [Bool.eq_iff_iff, ← not_iff_not, Bool.not_eq_true, Bool.not_eq_true, complies_eq_false_iff,
    complies_eq_false_iff]
  constructor
  · rintro ⟨out, hout, hop, v, hv, tag, htag⟩
    exact ⟨out, reordered.mem_iff.mpr hout, hop, v, hv, tag, (h out hout hop v hv tag).mp htag⟩
  · rintro ⟨out, hout, hop, v, hv, tag, htag⟩
    have inside := reordered.mem_iff.mp hout
    exact ⟨out, inside, hop, v, hv, tag, (h out inside hop v hv tag).mpr htag⟩

/-- Two orders of the same operations settle on the same integrity, and on the same secrecy but
for tags that circulate. The verdicts are the same where no output reads such a tag, and all
marks are the same where no tag circles behind a removal that waits. -/
theorem fixpoint_reordered_unless_circulating (hbook : RuleBook.ofRules rules = .ok book)
    (distinct : (m.operations.map (·.id)).Nodup) (reordered : m'.operations.Perm m.operations)
    {f f' : Fixpoint} (hf : fixpoint book m = .ok (some f))
    (hf' : fixpoint book m' = .ok (some f')) :
    (∀ v, integrityOf f.marks v = integrityOf f'.marks v) ∧
      (∀ tag v, ¬ Circulates book m f.marks tag v →
        (tag ∈ secrecyOf f.marks v ↔ tag ∈ secrecyOf f'.marks v)) ∧
      ((∀ out, out ∈ m.operations → out.operator = Sql.output → ∀ v, v ∈ out.inputs →
        ∀ tag, ¬ Circulates book m f.marks tag v) → complies m f = complies m' f') ∧
      (Tame book m → (∀ v, marksOf f.marks v = marksOf f'.marks v) ∧
        complies m f = complies m' f') := by
  have holds := RuleBook.holds_ofRules hbook
  have solved := run_solved hf
  have solved' : ∀ o, o ∈ m.operations → Solved book f'.marks o := fun o ho =>
    run_solved hf' o (reordered.mem_iff.mpr ho)
  have placed' : Placed m f'.marks := by
    intro v new hfind
    obtain ⟨o, ho, hop, hv⟩ := run_placed hf' v new hfind
    exact ⟨o, reordered.mem_iff.mp ho, hop, hv⟩
  have grown : Vouched f.marks f'.marks := run_vouched holds solved' (.refl _) hf
  have grown' : Vouched f'.marks f.marks := run_vouched holds solved reordered hf'
  have alike : ActAlike book f'.marks f.marks := fun _ _ _ =>
    ⟨fun acts => acts.mono holds grown', fun acts => acts.mono holds grown⟩
  have integrity : ∀ v, integrityOf f.marks v = integrityOf f'.marks v := fun v =>
    OrdSet.ext fun tag => ⟨grown v tag, grown' v tag⟩
  have secrecy : ∀ tag v, ¬ Circulates book m f.marks tag v →
      (tag ∈ secrecyOf f.marks v ↔ tag ∈ secrecyOf f'.marks v) := by
    intro tag v still
    constructor
    · intro has
      by_contra lacks
      have circulates := circulates_of_differ distinct alike.symm (run_placed hf)
        (run_sourced holds solved' (.refl _) hf) solved solved' has lacks
      exact still (circulates.alike alike)
    · intro has
      by_contra lacks
      exact still (circulates_of_differ distinct alike placed'
        (run_sourced holds solved reordered hf') solved' solved has lacks)
  have verdict : (∀ out, out ∈ m.operations → out.operator = Sql.output → ∀ v, v ∈ out.inputs →
      ∀ tag, ¬ Circulates book m f.marks tag v) → complies m f = complies m' f' := fun still =>
    complies_eq_of_alike reordered fun out hout hop v hv tag =>
      secrecy tag v (still out hout hop v hv tag)
  refine ⟨integrity, secrecy, verdict, fun tame => ⟨fun v => ?_, verdict ?_⟩⟩
  · have same : secrecyOf f.marks v = secrecyOf f'.marks v :=
      OrdSet.ext fun tag => secrecy tag v (not_circulates_of_tame tame v)
    rw [marksOf, marksOf, same, integrity]
  · exact fun _ _ _ v _ _ => not_circulates_of_tame tame v

/-! ## A review moved forward -/

namespace Recycling

/-- The review now comes before the release that waits for it. -/
def reviewedFirst : Module :=
  ⟨0, [⟨0, none, .empty, .empty, .empty,
    [.standalone 0 Sql.literal [] [],
      .standalone 4 Sql.tagTransform [(Sql.ruleName, .text "review")] [.result 0 0],
      .standalone 2 Sql.merge [(Sql.controlStart, .integer 2)] [.result 0 0, .result 3 0],
      .standalone 1 Sql.tagTransform [(Sql.ruleName, .text "classify")] [.result 2 0],
      .standalone 3 Sql.tagTransform
        [(Sql.ruleName, .text "release"), ("reviewer", .integer 1)] [.result 1 0, .result 4 0],
      .standalone 5 Sql.output [] [.result 3 0]]⟩]⟩

theorem reviewedFirst_perm : reviewedFirst.operations.Perm root.operations :=
  .cons _ (@List.perm_middle _ _ [_, _, _] [_]).symm

theorem fixpoint_reordered_unless_circulating_root :
    (root.operations.map (·.id)).Nodup ∧ reviewedFirst.operations.Perm root.operations ∧
      ∃ book f f', RuleBook.ofRules Release.rules = .ok book ∧
        fixpoint book root = .ok (some f) ∧ fixpoint book reviewedFirst = .ok (some f') ∧
          Tame book root ∧ (∀ v, marksOf f.marks v = marksOf f'.marks v) ∧
            complies root f = complies reviewedFirst f' := by
  have distinct : (root.operations.map (·.id)).Nodup := by decide
  obtain ⟨book, f, f', hbook, hf, hf', removals⟩ : ∃ book f f',
      RuleBook.ofRules Release.rules = .ok book ∧ fixpoint book root = .ok (some f) ∧
        fixpoint book reviewedFirst = .ok (some f') ∧
          ∀ o, o ∈ root.operations → namedAction? book o = some .removeConfidentiality →
            o.id = 3 := ⟨_, _, _, rfl, rfl, rfl, by decide⟩
  have same := fixpoint_reordered_unless_circulating hbook distinct reviewedFirst_perm hf hf'
  exact ⟨distinct, reviewedFirst_perm, book, f, f', hbook, hf, hf', tame removals,
    same.2.2.2 (tame removals)⟩

end Recycling

/-! ## A tag that got through in time -/

namespace Stray

def literal : Operation := .standalone 0 Sql.literal [] []

def classify : Operation :=
  .standalone 1 Sql.tagTransform [(Sql.ruleName, .text "classify")] [.result 0 0]

def release : Operation :=
  .standalone 2 Sql.tagTransform
    [(Sql.ruleName, .text "release"), ("reviewer", .integer 1)] [.result 1 0, .result 4 0]

def gather : Operation :=
  .standalone 3 Sql.merge [(Sql.controlStart, .integer 2)] [.result 3 0, .result 2 0]

def review : Operation :=
  .standalone 4 Sql.tagTransform [(Sql.ruleName, .text "review")] [.result 0 0]

def output : Operation := .standalone 5 Sql.output [] [.result 3 0]

def arranged (operations : List Operation) : Module :=
  ⟨0, [⟨0, none, .empty, .empty, .empty, operations⟩]⟩

/-- The release is visited once before the review, and the merge keeps what it lets pass. -/
def reviewedLate : Module :=
  arranged [literal, classify, release, gather, review, output]

def reviewedEarly : Module :=
  arranged [literal, review, classify, release, gather, output]

theorem order_decides_verdict :
    (reviewedLate.operations.map (·.id)).Nodup ∧
      reviewedEarly.operations.Perm reviewedLate.operations ∧
        ∃ book f f', RuleBook.ofRules Release.rules = .ok book ∧
          fixpoint book reviewedLate = .ok (some f) ∧
            fixpoint book reviewedEarly = .ok (some f') ∧
              secrecyOf f.marks (.result 3 0) ≠ secrecyOf f'.marks (.result 3 0) ∧
                complies reviewedLate f = false ∧ complies reviewedEarly f' = true := by
  have moved : reviewedEarly.operations.Perm reviewedLate.operations :=
    .cons literal (@List.perm_middle _ review [classify, release, gather] [output]).symm
  exact ⟨by decide, moved, _, _, _, rfl, rfl, rfl, by decide, rfl, rfl⟩

end Stray

end Rescan

end TagFlow
