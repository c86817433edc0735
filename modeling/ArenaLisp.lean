import ArenaLisp.Arena.SameTree
import ArenaLisp.Main
import ArenaLisp.Proofs.Mark
import ArenaLisp.Proofs.Alloc
import ArenaLisp.Proofs.Capacity
import ArenaLisp.Proofs.Computes
import ArenaLisp.Proofs.Cut
import ArenaLisp.Proofs.EvalComputes
import ArenaLisp.Proofs.EvalTree
import ArenaLisp.Proofs.History
import ArenaLisp.Proofs.Session
import ArenaLisp.Proofs.Grammar
import ArenaLisp.Proofs.Room
import ArenaLisp.Proofs.Spells
import ArenaLisp.Proofs.Accepts
import ArenaLisp.Proofs.SameTree
import ArenaLisp.Proofs.Printed
import ArenaLisp.Proofs.RoundTrip
import ArenaLisp.Proofs.Representation
import ArenaLisp.Proofs.Walks
import ArenaLisp.Proofs.Confinement
import ArenaLisp.Proofs.Shapes
import ArenaLisp.Proofs.Interning
import ArenaLisp.Proofs.Collection
import ArenaLisp.Proofs.Exhaustion
import ArenaLisp.Proofs.Application
import ArenaLisp.Proofs.Footprint
import ArenaLisp.Proofs.Chains
import ArenaLisp.Proofs.Agreement
import ArenaLisp.Proofs.Sequential
import ArenaLisp.Proofs.LetLambda
import ArenaLisp.Proofs.Accounting
import ArenaLisp.Proofs.TreeEquality
import ArenaLisp.Proofs.Progress
import ArenaLisp.Proofs.Offsets
import ArenaLisp.Proofs.Vocabulary
import ArenaLisp.Proofs.Concatenation
import ArenaLisp.Proofs.Responses
import ArenaLisp.Proofs.BindingRoots
