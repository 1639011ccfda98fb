import Scalarize.Annotation.Restrict
import Scalarize.Build
import Scalarize.Circuit.PathTable
import Scalarize.Circuit.Text
import Scalarize.Lower.Circuit
import Scalarize.NamePool
import Scalarize.Partition
import Scalarize.Ty.Json
import Scalarize.Proofs.Annotation
import Scalarize.Proofs.Arguments
import Scalarize.Proofs.Body.Below
import Scalarize.Proofs.Body.Coherent
import Scalarize.Proofs.Body.Forest
import Scalarize.Proofs.Body.Growth
import Scalarize.Proofs.Body.Rewiring
import Scalarize.Proofs.Body.Tables
import Scalarize.Proofs.Body.Unfolds
import Scalarize.Proofs.Built
import Scalarize.Proofs.Circuits
import Scalarize.Proofs.Completeness
import Scalarize.Proofs.Ends
import Scalarize.Proofs.Handover
import Scalarize.Proofs.InFront
import Scalarize.Proofs.Lowering
import Scalarize.Proofs.Modules
import Scalarize.Proofs.Narrowing
import Scalarize.Proofs.Ports
import Scalarize.Proofs.Progress
import Scalarize.Proofs.Readiness
import Scalarize.Proofs.Shape
import Scalarize.Proofs.Stage
import Scalarize.Proofs.Step
import Scalarize.Proofs.Step.Access
import Scalarize.Proofs.Step.Cast
import Scalarize.Proofs.Step.Cloning
import Scalarize.Proofs.Step.Connect
import Scalarize.Proofs.Step.Instance
import Scalarize.Proofs.Step.Memory
import Scalarize.Proofs.Step.Producer
import Scalarize.Proofs.Step.Write
import Scalarize.Proofs.Targets
import Scalarize.Proofs.Ty
import Scalarize.Proofs.Walk
import Scalarize.Proofs.Edits
import Scalarize.Proofs.Edits.Step
import Scalarize.Proofs.Edits.Walk
import Scalarize.Proofs.Idempotence
import Scalarize.Proofs.Body.Scope
import Scalarize.Proofs.Edits.Ports
import Scalarize.Proofs.Edits.Standing
import Scalarize.Proofs.Interfaces
import Scalarize.Proofs.Scope
import Scalarize.Proofs.Symbols
import Scalarize.Proofs.Carriers
import Scalarize.Proofs.Descent
import Scalarize.Proofs.Inheritance
import Scalarize.Proofs.Paths
import Scalarize.Proofs.Body.Uses
import Scalarize.Proofs.Edits.Pending
import Scalarize.Proofs.FieldIds.Bounds
import Scalarize.Proofs.Following
import Scalarize.Proofs.Frame
import Scalarize.Proofs.PathEnds
import Scalarize.Proofs.Typing
import Scalarize.Proofs.Partition.Calls
import Scalarize.Proofs.FreshNames
import Scalarize.Proofs.PathTable
import Scalarize.Proofs.Provenance
import Scalarize.Proofs.Splitting
import Scalarize.Proofs.Gauge
import Scalarize.Proofs.Gauge.Build
import Scalarize.Proofs.Gauge.Split
import Scalarize.Proofs.Gauge.Cast
import Scalarize.Proofs.Gauge.Access
import Scalarize.Proofs.Gauge.Memory
import Scalarize.Proofs.Gauge.Instance
import Scalarize.Proofs.Gauge.Step
import Scalarize.Proofs.Gauge.Walk
import Scalarize.Proofs.Gauge.Rounds
import Scalarize.Proofs.Gauge.Start
import Scalarize.Proofs.Reachable
import Scalarize.Proofs.Worklist
import Scalarize.Proofs.PortLoop
import Scalarize.Proofs.Termination
import Scalarize.Proofs.Region.Connect
import Scalarize.Proofs.LeafAnnotations
import Scalarize.Proofs.Casts
import Scalarize.Proofs.PortAnnotations
import Scalarize.Proofs.FlattenedPorts
import Scalarize.Proofs.Region.Way
import Scalarize.Proofs.Region.GuardedWrite
import Scalarize.Proofs.Region.Write
import Scalarize.Proofs.Region.Expansion
import Scalarize.Proofs.Lineage
import Scalarize.Proofs.Body.Erasure
import Scalarize.Proofs.Annotation.Whole
import Scalarize.Proofs.ScopedParts
import Scalarize.Proofs.Distribution
import Scalarize.Proofs.Widths
import Scalarize.Proofs.PortNames
import Scalarize.Proofs.Body.Listing
import Scalarize.Proofs.Sweep
import Scalarize.Proofs.Meaning.Drafts
import Scalarize.Proofs.Meaning.GivingWay
import Scalarize.Proofs.Meaning.Instances
import Scalarize.Proofs.Meaning.Ports
