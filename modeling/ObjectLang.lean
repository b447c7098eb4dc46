import ObjectLang.Binding
import ObjectLang.Code.Builder
import ObjectLang.Code.Image
import ObjectLang.Code.Lowering
import ObjectLang.Code.Opcode
import ObjectLang.Code.Symbolic
import ObjectLang.Compilation
import ObjectLang.Inheritance
import ObjectLang.Journal
import ObjectLang.Machine.Config
import ObjectLang.Machine.Run
import ObjectLang.Machine.State
import ObjectLang.Machine.Step
import ObjectLang.Proofs.Ancestry
import ObjectLang.Proofs.Classes.Headers
import ObjectLang.Proofs.Classes.Hierarchy
import ObjectLang.Proofs.Classes.Lineage
import ObjectLang.Proofs.Classes.Members
import ObjectLang.Proofs.Classes.Names
import ObjectLang.Proofs.Classes.Numbering
import ObjectLang.Proofs.Classes.Slots
import ObjectLang.Proofs.Code.Assembly
import ObjectLang.Proofs.Code.Discipline
import ObjectLang.Proofs.Code.Dispatch
import ObjectLang.Proofs.Code.Emission
import ObjectLang.Proofs.Code.Encoding
import ObjectLang.Proofs.Code.Generator
import ObjectLang.Proofs.Code.Heights
import ObjectLang.Proofs.Code.Integrity
import ObjectLang.Proofs.Code.Labels
import ObjectLang.Proofs.Code.Layout
import ObjectLang.Proofs.Code.Links
import ObjectLang.Proofs.Code.Listing
import ObjectLang.Proofs.Code.Lowering
import ObjectLang.Proofs.Code.Numbers
import ObjectLang.Proofs.Code.Relocation
import ObjectLang.Proofs.Code.Segments
import ObjectLang.Proofs.Code.Stretches
import ObjectLang.Proofs.Code.Tables
import ObjectLang.Proofs.DeclaredTypes
import ObjectLang.Proofs.Evaluation
import ObjectLang.Proofs.Generation
import ObjectLang.Proofs.Inheritance
import ObjectLang.Proofs.Joins
import ObjectLang.Proofs.Machine.Actions
import ObjectLang.Proofs.Machine.Construction
import ObjectLang.Proofs.Machine.Control
import ObjectLang.Proofs.Machine.Decoding
import ObjectLang.Proofs.Machine.Effects
import ObjectLang.Proofs.Machine.Execution
import ObjectLang.Proofs.Machine.Faults
import ObjectLang.Proofs.Machine.Flags
import ObjectLang.Proofs.Machine.Frames
import ObjectLang.Proofs.Machine.Instructions
import ObjectLang.Proofs.Machine.Limits
import ObjectLang.Proofs.Machine.Outcomes
import ObjectLang.Proofs.Machine.Parts
import ObjectLang.Proofs.Machine.Regularity
import ObjectLang.Proofs.Machine.Separation
import ObjectLang.Proofs.Machine.Sequences
import ObjectLang.Proofs.Machine.Snapshot
import ObjectLang.Proofs.Preservation
import ObjectLang.Proofs.Runtime.Access
import ObjectLang.Proofs.Runtime.Dispatch
import ObjectLang.Proofs.Runtime.History
import ObjectLang.Proofs.Runtime.Invariant
import ObjectLang.Proofs.Safety
import ObjectLang.Proofs.Scope.Acceptance
import ObjectLang.Proofs.Scope.Annotations
import ObjectLang.Proofs.Scope.Bindings
import ObjectLang.Proofs.Scope.Coherence
import ObjectLang.Proofs.Scope.Creations
import ObjectLang.Proofs.Scope.Levels
import ObjectLang.Proofs.Scope.Lexical
import ObjectLang.Proofs.Scope.Mirror
import ObjectLang.Proofs.Scope.Regions
import ObjectLang.Proofs.Scope.Rules
import ObjectLang.Proofs.Scope.Stability
import ObjectLang.Proofs.Scope.Stack
import ObjectLang.Proofs.Scope.Walk
import ObjectLang.Proofs.Simulation.Declarations
import ObjectLang.Proofs.Simulation.Expressions
import ObjectLang.Proofs.Simulation.Outcome
import ObjectLang.Proofs.Simulation.Programs
import ObjectLang.Proofs.Simulation.Routines
import ObjectLang.Proofs.Simulation.State
import ObjectLang.Proofs.Sites
import ObjectLang.Proofs.Subtyping
import ObjectLang.Proofs.Typing.Declarations
import ObjectLang.Proofs.Typing.Inspection
import ObjectLang.Proofs.Typing.Obligations
import ObjectLang.Proofs.Typing.Overrides
import ObjectLang.Proofs.Typing.Rules
import ObjectLang.Proofs.Typing.Settled
import ObjectLang.Proofs.Word
import ObjectLang.Report
import ObjectLang.Scope.Context
import ObjectLang.Scope.Error
import ObjectLang.Scope.Members
import ObjectLang.Scope.Resolve
import ObjectLang.Scope.Stack
import ObjectLang.Table
import ObjectLang.Tree
import ObjectLang.Ty.Basic
import ObjectLang.Ty.Order
import ObjectLang.Typing.Error
import ObjectLang.Typing.Expr
import ObjectLang.Typing.Program
import ObjectLang.Word
