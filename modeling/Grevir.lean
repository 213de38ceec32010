import Grevir.Support.Runs
import Grevir.Support.Ring
import Grevir.Event.Queue
import Grevir.Event.Mailbox
import Grevir.Event.Tasks
import Grevir.Event.Tracks
import Grevir.Event.Fifo
import Grevir.Event.Elide
import Grevir.Event.Ownership
import Grevir.Support.Digraph
import Grevir.Core.ResourceClaims
import Grevir.Core.Module
import Grevir.Core.LifecycleOrder
import Grevir.Support.Positions
import Grevir.Core.ResourceChecks
import Grevir.Core.Application
import Grevir.Support.Codec
import Grevir.Support.Utf8
import Grevir.Interrupt.Plan
import Grevir.Interrupt.ProbeRecord
import Grevir.Irqgen.Value
import Grevir.Irqgen.Protocol
import Grevir.Support.Checks
import Grevir.Irqgen.Validate
import Grevir.Irqgen.Record
import Grevir.Event.ContextPolicy
import Grevir.Interrupt.Demand
import Grevir.Interrupt.Binding
import Grevir.Interrupt.Valid
import Grevir.Irqgen.Validators
import Grevir.Support.Json
import Grevir.Support.JsonText
import Grevir.Irqgen.Canonical
import Grevir.Irqgen.Emit
import Grevir.Interrupt.Recorded
import Grevir.Irqgen.Guards
import Grevir.Support.Programs
import Grevir.Irqgen.Outputs
import Grevir.Irqgen.Directory
import Grevir.Support.Fields
import Grevir.Irqgen.ObjectSection
import Grevir.Irqgen.Ready
import Grevir.Irqgen.Commands
import Grevir.Irqgen.PlanSection
import Grevir.Irqgen.Coherence
import Grevir.Irqgen.Stages
import Grevir.Irqgen.Attempts
import Grevir.Irqgen.Transaction
import Grevir.Interrupt.Orders
import Grevir.Interrupt.Start
import Grevir.Interrupt.StartPolicy
import Grevir.Core.PinAliases
import Grevir.Support.JsonKeys
import Grevir.Irqgen.Spelling
import Grevir.Support.Backtrack
import Grevir.Core.Search
import Grevir.Support.Preorder
import Grevir.Core.ModuleClosure
import Grevir.Support.ExchangeSort
import Grevir.Interrupt.Catalog
import Grevir.Support.Digest
import Grevir.Irqgen.Corruption
import Grevir.Core.AllocatedApplication
import Grevir.Support.Repeats
import Grevir.Core.AllocationClaims
import Grevir.Interrupt.Inventory
import Grevir.Support.Framing
import Grevir.Event.PolicyIdentity
import Grevir.Support.Branches
import Grevir.Core.ResourceGraph
import Grevir.Event.RingArithmetic
import Grevir.Event.Delivery
import Grevir.Interrupt.Handler
import Grevir.Irqgen.Routing
import Grevir.Irqgen.FinalPass
import Grevir.Irqgen.Generation
import Grevir.Irqgen.ArduinoBuild
import Grevir.Support.Templates
import Grevir.Irqgen.Imprint
import Grevir.Irqgen.Firmware
import Grevir.Event.Desk
import Grevir.Irqgen.Objects
import Grevir.Support.Dialogue
import Grevir.Interrupt.StartCode
import Grevir.Irqgen.Startup
import Grevir.Irqgen.DeclarationOrder
