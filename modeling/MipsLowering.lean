import MipsLowering.Front.CommandLine
import MipsLowering.Front.ProgramFile
import MipsLowering.Front.Request
import MipsLowering.Main
import MipsLowering.Proofs.Emission
import MipsLowering.Proofs.Templates
import MipsLowering.Proofs.SettledCode
import MipsLowering.Proofs.Layout
import MipsLowering.Proofs.Faults
import MipsLowering.Proofs.Reading
import MipsLowering.Proofs.Operands
import MipsLowering.Proofs.Simulation
import MipsLowering.Proofs.Interpreter
import MipsLowering.Proofs.ScalarCode
import MipsLowering.Proofs.ScalarLayout
import MipsLowering.Proofs.Preservation
import MipsLowering.Proofs.Homes
import MipsLowering.Proofs.Deliveries
import MipsLowering.Proofs.Frame
import MipsLowering.Proofs.Journeys
import MipsLowering.Proofs.LastWrite
import MipsLowering.Proofs.Ledger
import MipsLowering.Proofs.Labels
import MipsLowering.Proofs.Cells
import MipsLowering.Proofs.Outcomes
import MipsLowering.Proofs.Switches
import MipsLowering.Proofs.StatementCode
import MipsLowering.Proofs.Targets
import MipsLowering.Proofs.DataGrowth
import MipsLowering.Proofs.Clashes
import MipsLowering.Proofs.ArrayCode
import MipsLowering.Proofs.DataLayout
import MipsLowering.Proofs.Arrays
import MipsLowering.Proofs.Stack
import MipsLowering.Proofs.Arguments
import MipsLowering.Proofs.NestedCalls
import MipsLowering.Proofs.Transcripts
import MipsLowering.Proofs.Remarks
import MipsLowering.Proofs.Annotations
import MipsLowering.Proofs.RegisterWrites
import MipsLowering.Proofs.Demands
import MipsLowering.Proofs.References
import MipsLowering.Proofs.Bindings
import MipsLowering.Proofs.Utf8
import MipsLowering.Proofs.FrontEnds
import MipsLowering.Proofs.Tokens
import MipsLowering.Proofs.Precedence
import MipsLowering.Proofs.Spelling
import MipsLowering.Proofs.OperatorValues
import MipsLowering.Proofs.Allocation
import MipsLowering.Proofs.CommandRuns
import MipsLowering.Proofs.SingleLines
import MipsLowering.Proofs.LineIntegrity
import MipsLowering.Proofs.OverflowTraps
import MipsLowering.Proofs.Walks
import MipsLowering.Proofs.FillCode
import MipsLowering.Proofs.ZeroFills
import MipsLowering.Proofs.Registrations
import MipsLowering.Proofs.LiteralPool
import MipsLowering.Proofs.Strides
import MipsLowering.Proofs.FetchPaths
import MipsLowering.Proofs.ElementLines
import MipsLowering.Proofs.IndexedWrites
import MipsLowering.Proofs.TextLiterals
import MipsLowering.Proofs.BinaryLines
import MipsLowering.Proofs.HeldRegisters
import MipsLowering.Proofs.Fetches
import MipsLowering.Proofs.StoredValues
import MipsLowering.Proofs.LabelSupply
import MipsLowering.Proofs.AssignmentSigns
import MipsLowering.Proofs.SymbolOrder
import MipsLowering.Proofs.ListingText
import MipsLowering.Proofs.InputFiles
