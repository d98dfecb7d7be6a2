import TagFlow.Flow.Depth
import TagFlow.Main
import TagFlow.Program.Walk
import TagFlow.Proofs.Analyses
import TagFlow.Proofs.Decides
import TagFlow.Proofs.Flow.Bottom
import TagFlow.Proofs.Flow.Graph
import TagFlow.Proofs.Flow.Least
import TagFlow.Proofs.Flow.Lockstep
import TagFlow.Proofs.Flow.Loop
import TagFlow.Proofs.Flow.PostFixpoint
import TagFlow.Proofs.Flow.Relation
import TagFlow.Proofs.Flow.Seed
import TagFlow.Proofs.Flow.Sweep
import TagFlow.Proofs.Flow.Termination
import TagFlow.Proofs.Flow.Upkeep
import TagFlow.Proofs.Flow.Worklist
import TagFlow.Proofs.Label.Alike
import TagFlow.Proofs.Label.Below
import TagFlow.Proofs.Label.Faults
import TagFlow.Proofs.Label.Lattice
import TagFlow.Proofs.Label.Order
import TagFlow.Proofs.Label.Precedes
import TagFlow.Proofs.Label.Renumbered
import TagFlow.Proofs.Label.TagNames
import TagFlow.Proofs.Label.Transfer
import TagFlow.Proofs.Policy.Agreement
import TagFlow.Proofs.Policy.Compile
import TagFlow.Proofs.Policy.Exact
import TagFlow.Proofs.Policy.Flaws
import TagFlow.Proofs.Policy.Guards
import TagFlow.Proofs.Policy.Leak
import TagFlow.Proofs.Policy.Meaning
import TagFlow.Proofs.Policy.Numbering
import TagFlow.Proofs.Policy.Privacy
import TagFlow.Proofs.Policy.Reach
import TagFlow.Proofs.Policy.Reorder
import TagFlow.Proofs.Policy.Rescan
import TagFlow.Proofs.Policy.RescanAcyclic
import TagFlow.Proofs.Policy.RescanFair
import TagFlow.Proofs.Policy.RescanLeast
import TagFlow.Proofs.Policy.RescanLoops
import TagFlow.Proofs.Policy.RescanOrder
import TagFlow.Proofs.Policy.RescanRenumbered
import TagFlow.Proofs.Policy.RescanReorder
import TagFlow.Proofs.Policy.RescanSolution
import TagFlow.Proofs.Policy.Roles
import TagFlow.Proofs.Policy.RuleBook
import TagFlow.Proofs.Policy.Sensitivities
import TagFlow.Proofs.Policy.Spending
import TagFlow.Proofs.Policy.Stricter
import TagFlow.Proofs.Policy.Walks
import TagFlow.Proofs.Program.Assembly
import TagFlow.Proofs.Program.Dataflow
import TagFlow.Proofs.Program.NameTables
import TagFlow.Proofs.Program.Preorder
import TagFlow.Proofs.Program.Rearranged
import TagFlow.Proofs.Program.Renaming
import TagFlow.Proofs.Program.Reprinting
import TagFlow.Proofs.Related
import TagFlow.Proofs.Scenario.Accepts
import TagFlow.Proofs.Scenario.Declaring
import TagFlow.Proofs.Scenario.Denotes
import TagFlow.Proofs.Scenario.Drafts
import TagFlow.Proofs.Scenario.Faithful
import TagFlow.Proofs.Scenario.Lowering
import TagFlow.Proofs.Scenario.Places
import TagFlow.Proofs.Scenario.Secrecy
import TagFlow.Proofs.Scenario.Verdict
import TagFlow.Proofs.Scenario.WellFormed
import TagFlow.Proofs.Scenario.Written
