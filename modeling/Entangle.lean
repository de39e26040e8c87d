import Entangle.Circuit.Qasm
import Entangle.Circuit.Sequence
import Entangle.Command.Config
import Entangle.Command.Failure
import Entangle.Command.Flag
import Entangle.Command.Report
import Entangle.Command.Report.Render
import Entangle.Command.Run
import Entangle.Command.Setting
import Entangle.Command.Target
import Entangle.Command.Usage
import Entangle.Command.VariableFile
import Entangle.Cx
import Entangle.Cx.Numeral
import Entangle.Decimal.Layout
import Entangle.Decimal.Numeral
import Entangle.Decimal.Shortest
import Entangle.Document
import Entangle.Euler.Angles
import Entangle.Euler.Basis
import Entangle.Euler.Emission
import Entangle.Family.Decomposer
import Entangle.Fault
import Entangle.Fault.Message
import Entangle.Gate.Call
import Entangle.Gate.Matrices
import Entangle.Gate.Operation
import Entangle.Gate.Param
import Entangle.Gate.Standard
import Entangle.Main
import Entangle.Matrix.Dense
import Entangle.Matrix.Jacobi
import Entangle.Matrix.Mat2
import Entangle.Matrix.Mat4
import Entangle.Matrix.Orthonormal
import Entangle.Matrix.Unitarity
import Entangle.Matrix.Written
import Entangle.Proofs.AdjointCircuit
import Entangle.Proofs.AdmittedMatrices
import Entangle.Proofs.AngleConventions
import Entangle.Proofs.AngleReading
import Entangle.Proofs.Approximation
import Entangle.Proofs.AxialInteraction
import Entangle.Proofs.BuiltCircuits
import Entangle.Proofs.CanonicalCircuit
import Entangle.Proofs.CanonicalForm
import Entangle.Proofs.ChamberAngles
import Entangle.Proofs.ChamberFolding
import Entangle.Proofs.CircuitShape
import Entangle.Proofs.CircuitText
import Entangle.Proofs.ClassChoice
import Entangle.Proofs.ClassFit
import Entangle.Proofs.ClassPattern
import Entangle.Proofs.Commutants
import Entangle.Proofs.CommutingParts
import Entangle.Proofs.ComplexView
import Entangle.Proofs.ConfigurationSources
import Entangle.Proofs.ControlledNot
import Entangle.Proofs.Corrections
import Entangle.Proofs.CountChoice
import Entangle.Proofs.CountOrder
import Entangle.Proofs.DecimalReading
import Entangle.Proofs.DecimalText
import Entangle.Proofs.DenseStorage
import Entangle.Proofs.Determinant
import Entangle.Proofs.Diagonalisation
import Entangle.Proofs.DoubleFormat
import Entangle.Proofs.DoubleOrder
import Entangle.Proofs.DoubleRounding
import Entangle.Proofs.Emission
import Entangle.Proofs.EmittedGates
import Entangle.Proofs.EntanglingGates
import Entangle.Proofs.Exact
import Entangle.Proofs.ExactSynthesis
import Entangle.Proofs.FamilyCircuit
import Entangle.Proofs.FamilyCount
import Entangle.Proofs.FamilyGateSet
import Entangle.Proofs.FamilyInteraction
import Entangle.Proofs.FamilyProbes
import Entangle.Proofs.FamilySynthesis
import Entangle.Proofs.FitDistance
import Entangle.Proofs.FixedFactors
import Entangle.Proofs.FlagReading
import Entangle.Proofs.GateCount
import Entangle.Proofs.ImaginaryUnit
import Entangle.Proofs.Interaction
import Entangle.Proofs.Invariants
import Entangle.Proofs.LocalEquivalence
import Entangle.Proofs.LocalInvariance
import Entangle.Proofs.MatrixView
import Entangle.Proofs.Mixtures
import Entangle.Proofs.NearEmission
import Entangle.Proofs.NearProducts
import Entangle.Proofs.NearRotations
import Entangle.Proofs.NearUnitaries
import Entangle.Proofs.NearestDoubles
import Entangle.Proofs.NumeralText
import Entangle.Proofs.OneQubitEmission
import Entangle.Proofs.OrthogonalFrames
import Entangle.Proofs.OrthonormalColumns
import Entangle.Proofs.OuterFactors
import Entangle.Proofs.PiMultiples
import Entangle.Proofs.PlainCircuit
import Entangle.Proofs.ProductForm
import Entangle.Proofs.ProductSplit
import Entangle.Proofs.PulseEquivalence
import Entangle.Proofs.PulseModes
import Entangle.Proofs.QubitPlacement
import Entangle.Proofs.ReachedClasses
import Entangle.Proofs.RealTrace
import Entangle.Proofs.RequestedFidelity
import Entangle.Proofs.RootEmission
import Entangle.Proofs.RotationProduct
import Entangle.Proofs.Rotations
import Entangle.Proofs.SequenceDenotation
import Entangle.Proofs.SequenceExtension
import Entangle.Proofs.SequenceInverse
import Entangle.Proofs.ShortestDecimals
import Entangle.Proofs.SingleAxis
import Entangle.Proofs.SingleUse
import Entangle.Proofs.SpecialValues
import Entangle.Proofs.StandardGates
import Entangle.Proofs.SymmetricEigenproblem
import Entangle.Proofs.ThreeGatePulse
import Entangle.Proofs.UnitarityTests
import Entangle.Proofs.UpToDiagonal
import Entangle.Proofs.WordStream
import Entangle.Proofs.WrittenAngles
import Entangle.Proofs.WrittenMatrices
import Entangle.Random.CoarseTable
import Entangle.Random.FineTable
import Entangle.Random.Normal
import Entangle.Random.Source
import Entangle.Random.Unitary
import Entangle.Scalar
import Entangle.Scalar.Binary64
import Entangle.Scalar.Nearest
import Entangle.Square
import Entangle.Synthesis.Decomposer
import Entangle.Synthesis.Diagonal
import Entangle.Synthesis.Pulse
import Entangle.Synthesis.PulseMode
import Entangle.Synthesis.Synthesize
import Entangle.Text.Blank
import Entangle.Text.Block
import Entangle.Text.Case
import Entangle.Text.CellWidth
import Entangle.Text.Cluster
import Entangle.Text.ClusterTable
import Entangle.Text.Printable
import Entangle.Text.Quoted
import Entangle.Text.Runs
import Entangle.Text.WidthTable
import Entangle.Weyl.Chamber
import Entangle.Weyl.Circuit
import Entangle.Weyl.Class
import Entangle.Weyl.Decomposition
import Entangle.Weyl.Diagonalize
import Entangle.Weyl.Magic
import Entangle.Weyl.Product
import Entangle.Weyl.Specialize
import Entangle.Word
