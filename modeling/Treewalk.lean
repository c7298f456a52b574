import Treewalk.Console.Session
import Treewalk.Console.Workbench
import Treewalk.Run.Fuel
import Treewalk.Proofs.Invariant
import Treewalk.Proofs.Trace
import Treewalk.Proofs.Compilation
import Treewalk.Proofs.Programs
import Treewalk.Proofs.JumpScope
import Treewalk.Proofs.WriteLocality
import Treewalk.Proofs.BindingFrame
import Treewalk.Proofs.Frames
import Treewalk.Proofs.Simulation
import Treewalk.Proofs.DynamicScope
import Treewalk.Proofs.Labels
import Treewalk.Proofs.Grammar
import Treewalk.Proofs.Correspondence
import Treewalk.Proofs.Endings
import Treewalk.Proofs.SideBySide
import Treewalk.Proofs.Related
import Treewalk.Proofs.Alike
import Treewalk.Proofs.Trees
import Treewalk.Proofs.AlikePrograms
import Treewalk.Proofs.UnknownTags
import Treewalk.Proofs.StableNames
import Treewalk.Proofs.Termination
import Treewalk.Proofs.Composition
import Treewalk.Proofs.Lockstep
import Treewalk.Proofs.Unmentioned
import Treewalk.Proofs.Operations
import Treewalk.Proofs.Aliasing
import Treewalk.Proofs.Printed
import Treewalk.Proofs.WriteOnly
import Treewalk.Proofs.Turns
import Treewalk.Proofs.Nesting
import Treewalk.Proofs.CallNotes
import Treewalk.Proofs.Splicing
import Treewalk.Proofs.CallTargets
import Treewalk.Proofs.TruthfulErrors
import Treewalk.Proofs.Histories
import Treewalk.Proofs.Memory
import Treewalk.Proofs.HostCalls
import Treewalk.Proofs.Interchange
import Treewalk.Proofs.ParameterLists
import Treewalk.Proofs.LabelIndex
