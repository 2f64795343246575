import ManySorted.Accepted.Range
import ManySorted.Accepted.Values
import ManySorted.BaseSort
import ManySorted.Checking
import ManySorted.Coercion.Across
import ManySorted.Coercion.Basic
import ManySorted.Contract
import ManySorted.Decision
import ManySorted.Declaration.Basic
import ManySorted.Declaration.Form
import ManySorted.Declaration.Position
import ManySorted.Declaration.Restriction
import ManySorted.Dependency
import ManySorted.Diagnostic.Basic
import ManySorted.Diagnostic.Code
import ManySorted.Diagnostic.Queue
import ManySorted.Draft
import ManySorted.Fault
import ManySorted.Ids
import ManySorted.Import
import ManySorted.Name
import ManySorted.Ordered
import ManySorted.Problem
import ManySorted.Productivity
import ManySorted.Proofs.Accepted.Covering
import ManySorted.Proofs.Accepted.Opening
import ManySorted.Proofs.Accepted.Parts
import ManySorted.Proofs.Accepted.Recipe
import ManySorted.Proofs.Accepted.Scanning
import ManySorted.Proofs.Coercion.Across
import ManySorted.Proofs.Coercion.Caching
import ManySorted.Proofs.Coercion.Completeness
import ManySorted.Proofs.Coercion.Copies
import ManySorted.Proofs.Coercion.History
import ManySorted.Proofs.Coercion.Inclusion
import ManySorted.Proofs.Coercion.Narrowing
import ManySorted.Proofs.Coercion.Query
import ManySorted.Proofs.Coercion.Recursion
import ManySorted.Proofs.Coercion.Relabeling
import ManySorted.Proofs.Coercion.Run
import ManySorted.Proofs.Coercion.Stack
import ManySorted.Proofs.Declaration.Account
import ManySorted.Proofs.Declaration.Admitting
import ManySorted.Proofs.Declaration.Denotation
import ManySorted.Proofs.Declaration.Early
import ManySorted.Proofs.Declaration.Enrolling
import ManySorted.Proofs.Declaration.Enrollment
import ManySorted.Proofs.Declaration.Entering
import ManySorted.Proofs.Declaration.Failing
import ManySorted.Proofs.Declaration.Forms
import ManySorted.Proofs.Declaration.Inscription
import ManySorted.Proofs.Declaration.Registering
import ManySorted.Proofs.Declaration.Resolving
import ManySorted.Proofs.Declaration.Restricting
import ManySorted.Proofs.Declaration.Roster
import ManySorted.Proofs.Declaration.Sound
import ManySorted.Proofs.Declaration.Survey
import ManySorted.Proofs.Dependency
import ManySorted.Proofs.Dependency.Linked
import ManySorted.Proofs.Dependency.LowLink
import ManySorted.Proofs.Dependency.Strong
import ManySorted.Proofs.Draft.Ending
import ManySorted.Proofs.Draft.Enlarging
import ManySorted.Proofs.Draft.Notes
import ManySorted.Proofs.Draft.Pacing
import ManySorted.Proofs.Draft.Passes
import ManySorted.Proofs.Draft.Rules
import ManySorted.Proofs.Draft.Run
import ManySorted.Proofs.Draft.Safety
import ManySorted.Proofs.Draft.Walk
import ManySorted.Proofs.Echo.Basic
import ManySorted.Proofs.Echo.Conveniences
import ManySorted.Proofs.Echo.Conveying
import ManySorted.Proofs.Echo.Declaring
import ManySorted.Proofs.Echo.Entries
import ManySorted.Proofs.Echo.Finding
import ManySorted.Proofs.Echo.Forms
import ManySorted.Proofs.Echo.Judging
import ManySorted.Proofs.Echo.Mating
import ManySorted.Proofs.Echo.Outcome
import ManySorted.Proofs.Echo.Registering
import ManySorted.Proofs.Echo.Rendering
import ManySorted.Proofs.Echo.Reordering
import ManySorted.Proofs.Echo.Resolving
import ManySorted.Proofs.Echo.Restricting
import ManySorted.Proofs.Guard.Checking
import ManySorted.Proofs.Guard.Components
import ManySorted.Proofs.Guard.Declaring
import ManySorted.Proofs.Guard.Forming
import ManySorted.Proofs.Guard.Importing
import ManySorted.Proofs.Guard.Pass
import ManySorted.Proofs.Guard.Productivity
import ManySorted.Proofs.Guard.Sizing
import ManySorted.Proofs.Guard.Table
import ManySorted.Proofs.Import.Annexing
import ManySorted.Proofs.Import.Assembly
import ManySorted.Proofs.Import.Cloning
import ManySorted.Proofs.Import.Compiling
import ManySorted.Proofs.Import.Embed
import ManySorted.Proofs.Import.Embedding
import ManySorted.Proofs.Import.Gathering
import ManySorted.Proofs.Import.Idempotence
import ManySorted.Proofs.Import.Isomorphism
import ManySorted.Proofs.Import.Placement
import ManySorted.Proofs.Import.Provenance
import ManySorted.Proofs.Import.Recognition
import ManySorted.Proofs.Import.Refusal
import ManySorted.Proofs.Import.Relocation
import ManySorted.Proofs.Import.Reuse
import ManySorted.Proofs.Import.Safety
import ManySorted.Proofs.Inhabitation
import ManySorted.Proofs.Name
import ManySorted.Proofs.Newness
import ManySorted.Proofs.Ordered
import ManySorted.Proofs.Productivity
import ManySorted.Proofs.Productivity.Wiring
import ManySorted.Proofs.Productivity.Worklist
import ManySorted.Proofs.Queue
import ManySorted.Proofs.Queue.Keeping
import ManySorted.Proofs.Renaming
import ManySorted.Proofs.Session
import ManySorted.Proofs.Session.Completeness
import ManySorted.Proofs.Session.Dependencies
import ManySorted.Proofs.Session.Failures
import ManySorted.Proofs.Session.Findings
import ManySorted.Proofs.Session.Joining
import ManySorted.Proofs.Session.Naming
import ManySorted.Proofs.Session.Normality
import ManySorted.Proofs.Session.Recomposing
import ManySorted.Proofs.Session.Registry
import ManySorted.Proofs.Session.Reordering
import ManySorted.Proofs.Session.Safety
import ManySorted.Proofs.Session.Seclusion
import ManySorted.Proofs.Session.Verdict
import ManySorted.Proofs.Sizing.Amount
import ManySorted.Proofs.Sizing.Component
import ManySorted.Proofs.Sizing.Counting
import ManySorted.Proofs.Sizing.Demands
import ManySorted.Proofs.Sizing.Equations
import ManySorted.Proofs.Sizing.Evaluating
import ManySorted.Proofs.Sizing.Exact
import ManySorted.Proofs.Sizing.Final
import ManySorted.Proofs.Sizing.Folding
import ManySorted.Proofs.Sizing.Graph
import ManySorted.Proofs.Sizing.Imported
import ManySorted.Proofs.Sizing.Models
import ManySorted.Proofs.Sizing.Outlets
import ManySorted.Proofs.Sizing.Positive
import ManySorted.Proofs.Sizing.Progress
import ManySorted.Proofs.Sizing.Recursion
import ManySorted.Proofs.Sizing.Roots
import ManySorted.Proofs.Sizing.Rules
import ManySorted.Proofs.Sizing.Run
import ManySorted.Proofs.Sizing.Safety
import ManySorted.Proofs.Sizing.Shuffling
import ManySorted.Proofs.Sizing.Simplifying
import ManySorted.Proofs.Sizing.Tally
import ManySorted.Proofs.Syntax
import ManySorted.Proofs.Syntax.Walking
import ManySorted.Proofs.Table.Arena
import ManySorted.Proofs.Table.Closed
import ManySorted.Proofs.Table.Families
import ManySorted.Proofs.Table.Growth
import ManySorted.Proofs.Table.Intact
import ManySorted.Proofs.Table.Moves
import ManySorted.Proofs.Table.Resolving
import ManySorted.Proofs.Table.Searching
import ManySorted.Proofs.Table.Tree
import ManySorted.Proofs.Table.WellFormed
import ManySorted.Proofs.Table.Writing
import ManySorted.Proofs.Term
import ManySorted.Proofs.Transfer.Admitting
import ManySorted.Proofs.Transfer.Combining
import ManySorted.Proofs.Transfer.Containing
import ManySorted.Proofs.Transfer.Course
import ManySorted.Proofs.Transfer.Declaring
import ManySorted.Proofs.Transfer.Importing
import ManySorted.Proofs.Transfer.Joining
import ManySorted.Proofs.Transfer.Placing
import ManySorted.Proofs.Transfer.Recomposing
import ManySorted.Proofs.Transfer.Registering
import ManySorted.Proofs.Transfer.Verdict
import ManySorted.Rule.Basic
import ManySorted.Rule.Synthesis
import ManySorted.Size
import ManySorted.Sizing.Basic
import ManySorted.Sizing.Graph
import ManySorted.Span
import ManySorted.Symbol
import ManySorted.Syntax.Builder
import ManySorted.Syntax.Module
import ManySorted.Syntax.Node
import ManySorted.Table.Basic
import ManySorted.Table.Resolution
import ManySorted.Text.Split
import ManySorted.Workspace
