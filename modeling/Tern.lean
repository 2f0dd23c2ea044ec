import Tern.Json.Read
import Tern.Order
import Tern.Ty.Equality
import Tern.Ty.Unify
import Tern.Project.Directory
import Tern.Snapshot.Json
import Tern.Proofs.Blame
import Tern.Proofs.Check.Remarks
import Tern.Proofs.Check.Resolution
import Tern.Proofs.Check.Rules
import Tern.Proofs.Check.Expr
import Tern.Proofs.Check.Register
import Tern.Proofs.Check.Unit
import Tern.Proofs.Check.Outcome
import Tern.Proofs.Check.Arena
import Tern.Proofs.Compile
import Tern.Proofs.Storage
import Tern.Proofs.Code
import Tern.Proofs.Closed
import Tern.Proofs.Order
import Tern.Proofs.Check.Forward
import Tern.Proofs.Parse.Placement
import Tern.Proofs.Ty
import Tern.Proofs.Imports
import Tern.Proofs.Check.Types
import Tern.Proofs.Check.Visibility
import Tern.Proofs.Check.Fields
import Tern.Proofs.Check.Returns
import Tern.Proofs.Check.Signatures
import Tern.Proofs.Schedule
import Tern.Proofs.Twin.Context
import Tern.Proofs.Twin.Rules
import Tern.Proofs.Twin.Expr
import Tern.Proofs.Twin.Items
import Tern.Proofs.Twin.Unit
import Tern.Proofs.Check.Registration
import Tern.Proofs.Check.Reorder
import Tern.Proofs.Check.Secrecy
import Tern.Proofs.Ty.Rule
import Tern.Proofs.Ty.Proper
import Tern.Proofs.Coherence
import Tern.Proofs.Redeclaration
import Tern.Proofs.Json
import Tern.Proofs.Snapshot
import Tern.Proofs.Reload
import Tern.Proofs.Horizon
import Tern.Proofs.Horizon.Rules
import Tern.Proofs.Horizon.Expr
import Tern.Proofs.Horizon.Unit
import Tern.Proofs.DistinctSets
import Tern.Proofs.Founded
import Tern.Proofs.Commute
import Tern.Proofs.Span
import Tern.Proofs.Parse.Progress
import Tern.Proofs.Parse.Spans
import Tern.Proofs.Check.Sites
import Tern.Proofs.Parse.Shift
import Tern.Proofs.Parse.Sequel
import Tern.Proofs.Parse.Continued
import Tern.Proofs.Parse.Fresh
import Tern.Proofs.Parse.Lines
import Tern.Proofs.Parse.OneLine
import Tern.Proofs.WrittenTypes
import Tern.Proofs.Order.Stable
import Tern.Proofs.Order.Search
import Tern.Proofs.Order.Circle
import Tern.Proofs.Ty.Mention
import Tern.Proofs.Ty.Renaming
import Tern.Proofs.Unifier.Run
import Tern.Proofs.Unifier.Settled
import Tern.Proofs.Unifier.Consistent
import Tern.Proofs.Unifier.Solution
import Tern.Proofs.Construction
import Tern.Proofs.Unifier.Renaming
import Tern.Proofs.Check.Hygiene
import Tern.Proofs.Parse.Operators
import Tern.Proofs.Parse.Interpolation
import Tern.Proofs.Parse.LongestToken
import Tern.Proofs.Parse.Partition
import Tern.Proofs.Forest
import Tern.Proofs.Storage.Outwards
import Tern.Proofs.Check.Balance
import Tern.Proofs.Check.Foreign
import Tern.Proofs.Text.Outline
import Tern.Proofs.Text.Quoted
import Tern.Proofs.Code.Lines
import Tern.Proofs.Code.Printed
import Tern.Proofs.Ty.Erasure
import Tern.Proofs.Check.Pushed
import Tern.Proofs.Check.Walk
import Tern.Proofs.Check.Calls
