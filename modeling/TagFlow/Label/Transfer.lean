import TagFlow.Flow.Worklist
import TagFlow.Label.Inference

/-! # Labels of an operation's outputs

An operation that implements no action passes the secrecy of all its inputs on to
every output and no integrity; an unknown input makes its outputs unknown. An action
refines that default by its rules.
-/

namespace TagFlow

namespace Label

/-- The label of an output that no rule speaks of. -/
def default (inputs : List Label) : Label :=
  inputs.foldl
    (fun acc l =>
      match acc, l with
      | known s _, known s' _ => known (s.union s') .empty
      | _, _ => unknown)
    untagged

/-- The integrity of the inputs at the given positions, merged in order. -/
def mergedIntegrity (kind : MergeKind) (inputs : List Label) :
    List Nat → Option TagSet → Except Fault (Option TagSet)
  | [], merged => .ok merged
  | index :: rest, merged =>
      match inputs[index]? with
      | none => .error (.mergeOutOfBounds index inputs.length)
      | some l => do
          let tags ← l.integrity
          mergedIntegrity kind inputs rest <| some <|
            match merged, kind with
            | none, _ => tags
            | some acc, .union => acc.union tags
            | some acc, .intersect => acc.inter tags

/-- One unknown input is enough to make the merged label unknown. -/
def merge (kind : MergeKind) (positions : List Nat) (inputs : List Label) (current : Label) :
    Except Fault Label :=
  if current.isUnknown || inputs.any isUnknown then .ok unknown
  else do
    let merged ← mergedIntegrity kind inputs positions none
    return current.withIntegrity (merged.getD .empty)

def change : TagChange → Tag → Label → Label
  | .addSecrecy, tag => addSecrecy tag
  | .removeSecrecy, tag => removeSecrecy tag
  | .addIntegrity, tag => addIntegrity tag
  | .removeIntegrity, tag => removeIntegrity tag

end Label

namespace InferenceRule

/-- Premises are checked in order up to the first that fails; an unknown input
satisfies none. -/
def premisesHold (inputs : List Label) : List Premise → Except Fault Bool
  | [] => .ok true
  | p :: rest =>
      match inputs[p.input]? with
      | none => .error (.premiseOutOfBounds p.input inputs.length)
      | some .unknown => .ok false
      | some (.known _ integrity) =>
          if integrity.contains p.tag then premisesHold inputs rest else .ok false

def conclude (inputs : List Label) (current : Label) : Conclusion → Except Fault Label
  | .copy index =>
      match inputs[index]? with
      | some l => .ok l
      | none => .error (.copyOutOfBounds index inputs.length)
  | .modify change tag => .ok (current.change change tag)
  | .merge kind positions => Label.merge kind positions inputs current

def apply (inputs : List Label) (current : Label) (rule : InferenceRule) : Except Fault Label := do
  if ← premisesHold inputs rule.premises then conclude inputs current rule.conclusion
  else return current

end InferenceRule

namespace RuleSet

def refine (action : String) (o : Operation) (inputs results : List Label)
    (index : Nat) (steps : List InferenceRule) : Except Fault (List Label) :=
  if index < o.outputCount then do
    let l ← steps.foldlM (InferenceRule.apply inputs) (Label.default inputs)
    return results.set index l
  else .error (.ruleOutputOutOfBounds index action o.operator o.outputCount)

def transfer (r : RuleSet) (o : Operation) (inputs : List Label) : Except Fault (List Label) :=
  let results := List.replicate o.outputCount (Label.default inputs)
  match r.actions.find? o.id with
  | none => .ok results
  | some action =>
      match r.rules.find? action with
      | none => .error (.missingAction action)
      | some outputs =>
          outputs.entries.foldlM (fun results e => refine action o inputs results e.1 e.2) results

/-- A known label rises only by tags that some step changes. -/
def analysis (r : RuleSet) : Analysis Label where
  bottom := .unknown
  join := Label.join
  initial := .untagged
  height := 2 * r.changedTags.length + 2
  transfer := r.transfer

def labels (r : RuleSet) (m : Module) : Except Fault (States Label) :=
  Worklist.solve r.analysis (.ofModule m)

end RuleSet

end TagFlow
