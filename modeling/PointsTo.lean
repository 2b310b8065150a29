import PointsTo.Main
import PointsTo.Solver.Operation
import PointsTo.Proofs.Actions
import PointsTo.Proofs.Constraints
import PointsTo.Proofs.Steps
import PointsTo.Proofs.Growth
import PointsTo.Proofs.Moves
import PointsTo.Proofs.Leastness
import PointsTo.Proofs.Faults
import PointsTo.Proofs.Reading
import PointsTo.Proofs.Loops
import PointsTo.Proofs.Universe
import PointsTo.Proofs.Budget
import PointsTo.Proofs.Load
import PointsTo.Proofs.Termination
import PointsTo.Proofs.Obligations
import PointsTo.Proofs.Arrival
import PointsTo.Proofs.Requests
import PointsTo.Proofs.Forwarding
import PointsTo.Proofs.Incremental
import PointsTo.Proofs.Closure
import PointsTo.Proofs.Completeness
import PointsTo.Proofs.Solution
import PointsTo.Proofs.Deliveries
import PointsTo.Proofs.Service
import PointsTo.Proofs.Verdict
import PointsTo.Proofs.CallTargets
import PointsTo.Proofs.Coverage
import PointsTo.Proofs.FaultLines
import PointsTo.Proofs.OrderIndependence
import PointsTo.Proofs.Reordering
import PointsTo.Proofs.Resubmission
import PointsTo.Proofs.Restart
import PointsTo.Proofs.Comments
import PointsTo.Proofs.Arguments
import PointsTo.Proofs.Written
import PointsTo.Proofs.References
import PointsTo.Proofs.RoundTrip
import PointsTo.Proofs.Muting
import PointsTo.Proofs.Owners
import PointsTo.Proofs.Sites
import PointsTo.Proofs.Headers
import PointsTo.Proofs.Requoting
import PointsTo.Proofs.Listing
import PointsTo.Proofs.Passage
import PointsTo.Proofs.ListedLines
import PointsTo.Proofs.ListedPrograms
import PointsTo.Proofs.Rosters
import PointsTo.Proofs.Origins
import PointsTo.Proofs.Drafts
import PointsTo.Proofs.Signatures
import PointsTo.Proofs.Arities
import PointsTo.Proofs.Reachability
import PointsTo.Proofs.Pictures
import PointsTo.Proofs.Counterparts
import PointsTo.Proofs.Renaming
import PointsTo.Proofs.ReturnVariables
import PointsTo.Proofs.StaticFields
import PointsTo.Proofs.WrittenForms
import PointsTo.Proofs.Reports
import PointsTo.Proofs.Ways
import PointsTo.Proofs.Defaults
import PointsTo.Proofs.Receivers
import PointsTo.Proofs.Descent
import PointsTo.Proofs.CallClosure
import PointsTo.Proofs.Advances
import PointsTo.Proofs.Sources
import PointsTo.Proofs.Searches
import PointsTo.Proofs.FieldLookup
import PointsTo.Proofs.Bodies
import PointsTo.Proofs.FaithfulNames
import PointsTo.Proofs.Rewriting
import PointsTo.Proofs.Concatenation
import PointsTo.Proofs.AliasGroups
import PointsTo.Proofs.Storage
import PointsTo.Proofs.Interning
import PointsTo.Proofs.NameUses
import PointsTo.Proofs.DeclaredNames
import PointsTo.Proofs.CallTables
import PointsTo.Proofs.Subtypes
import PointsTo.Proofs.ArgumentTexts
import PointsTo.Proofs.JavaTexts
import PointsTo.Proofs.UnitNames
