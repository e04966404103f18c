import Primer.Compile
import Primer.Machine.Run
import Primer.Proofs.Tables
import Primer.Proofs.Code
import Primer.Proofs.Emission.Rules
import Primer.Proofs.Emission.Labels
import Primer.Proofs.Typing.Rules
import Primer.Proofs.Typing.Erasure
import Primer.Proofs.Typing.Decision
import Primer.Proofs.Emission.Routines
import Primer.Proofs.Machine.Control
import Primer.Proofs.Semantics.Evaluator
import Primer.Proofs.Semantics.Soundness
import Primer.Proofs.Semantics.Erasure
import Primer.Proofs.Machine.Arithmetic
import Primer.Proofs.Machine.Runs
import Primer.Proofs.Machine.Instructions
import Primer.Proofs.Machine.Calls
import Primer.Proofs.Emission.Texts
import Primer.Proofs.Typing.Scopes
import Primer.Proofs.Typing.Paths
import Primer.Proofs.Typing.Causes
import Primer.Proofs.Typing.Unreachable
import Primer.Proofs.Typing.Annotations
import Primer.Proofs.Layout
import Primer.Proofs.Emission.Success
import Primer.Proofs.Emission.Places
import Primer.Proofs.Paths
import Primer.Proofs.Semantics.Acts
import Primer.Proofs.Machine.Sights
import Primer.Proofs.Simulation.Setting
import Primer.Proofs.Simulation.Acts
import Primer.Proofs.Simulation.Pieces
import Primer.Proofs.Simulation.Expressions
import Primer.Proofs.Simulation.Statements
import Primer.Proofs.Simulation.Programs
import Primer.Proofs.Simulation.Correctness
import Primer.Proofs.Emission.Variables
import Primer.Proofs.Simulation.Sights
import Primer.Proofs.Simulation.Answers
import Primer.Proofs.Modes
import Primer.Proofs.Safety
import Primer.Proofs.Emission.Returns
import Primer.Proofs.Typing.Code
import Primer.Proofs.Machine.Typing
import Primer.Proofs.Renaming.Basic
import Primer.Proofs.Renaming.Typing
import Primer.Proofs.Renaming.Emission
import Primer.Proofs.Renaming.Machine
import Primer.Proofs.Renaming.Hygiene
import Primer.Proofs.Machine.Surroundings
import Primer.Proofs.BlockScopes
import Primer.Proofs.Reordering.Names
import Primer.Proofs.Reordering.Programs
import Primer.Proofs.Reordering.Assemblies
import Primer.Proofs.Machine.Lookups
import Primer.Proofs.Reordering.Runs
import Primer.Proofs.Spans.Basic
import Primer.Proofs.Spans.Typing
import Primer.Proofs.Spans.Emission
import Primer.Proofs.Histories.Basic
import Primer.Proofs.Histories.Texts
import Primer.Proofs.Histories.Names
import Primer.Proofs.Histories.Scoping
import Primer.Proofs.Machine.Arguments
import Primer.Proofs.Emission.Operations
import Primer.Proofs.Emission.Literals
import Primer.Proofs.Emission.Loads
import Primer.Proofs.Assignment
import Primer.Proofs.Emission.Temporaries
import Primer.Proofs.Machine.Division
import Primer.Proofs.Text.Decimal
import Primer.Proofs.Machine.Conversions
import Primer.Proofs.Text.Shown
import Primer.Proofs.Text.Words
import Primer.Proofs.Listing
import Primer.Proofs.Text.Outlines
import Primer.Proofs.Drawing.Walk
import Primer.Proofs.Drawing.Reading
import Primer.Proofs.Emission.Alike
import Primer.Proofs.Emission.Negations
import Primer.Proofs.Emission.Footprints
import Primer.Proofs.Emission.Deliveries
import Primer.Proofs.Courses
import Primer.Proofs.Emission.Parts
import Primer.Proofs.Emission.Nesting
import Primer.Proofs.Emission.Segments
import Primer.Proofs.Machine.Concrete
import Primer.Proofs.Machine.Breakdowns
import Primer.Indexed.Table
import Primer.Indexed.Typing
import Primer.Indexed.Emission
import Primer.Proofs.Indexed.Emission
import Primer.Proofs.Indexed.Histories
import Primer.Proofs.Indexed.Success
