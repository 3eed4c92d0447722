import DenseNumeric.NumArray.Decomposition
import DenseNumeric.NumArray.Elementwise
import DenseNumeric.NumArray.Norm
import DenseNumeric.NumArray.Product
import DenseNumeric.NumArray.Selection
import DenseNumeric.NumArray.Stack
import DenseNumeric.NumArray.Text
import DenseNumeric.Proofs.Exact
import DenseNumeric.Proofs.HessenbergForm
import DenseNumeric.Proofs.Sweep
import DenseNumeric.Proofs.FullSweeps
import DenseNumeric.Proofs.SchurForm
import DenseNumeric.Proofs.Substitution
import DenseNumeric.Proofs.Eigenpairs
import DenseNumeric.Proofs.Inversion
import DenseNumeric.Proofs.RunLength
import DenseNumeric.Proofs.KeyResolution
import DenseNumeric.Proofs.Rounding
import DenseNumeric.Proofs.ValidStorage
import DenseNumeric.Proofs.ValidArray
import DenseNumeric.Proofs.Workspace
import DenseNumeric.Proofs.CheckedIndexing
import DenseNumeric.Proofs.SelectedElements
import DenseNumeric.Proofs.Assignment
import DenseNumeric.Proofs.RequestedVectors
import DenseNumeric.Proofs.Nearest
import DenseNumeric.Proofs.UnpackedRounding
import DenseNumeric.Proofs.UnpackedOperations
import DenseNumeric.Proofs.UnpackedPacking
import DenseNumeric.Proofs.FloatReading
import DenseNumeric.Proofs.FloatLengths
import DenseNumeric.Proofs.FloatBounds
import DenseNumeric.Proofs.FactorZeros
import DenseNumeric.Proofs.Deflation
import DenseNumeric.Proofs.FloatSubstitution
import DenseNumeric.Proofs.FiniteVectors
import DenseNumeric.Proofs.SweepLimit
import DenseNumeric.Proofs.Narrowing
import DenseNumeric.Proofs.Scaling
import DenseNumeric.Proofs.CheckedLoops
import DenseNumeric.Proofs.CheckedSweeps
import DenseNumeric.Proofs.PackedReduction
import DenseNumeric.Proofs.CheckedReduction
import DenseNumeric.Proofs.CheckedSubstitution
import DenseNumeric.Proofs.CheckedEigensystem
import DenseNumeric.Proofs.CheckedElimination
import DenseNumeric.Proofs.CheckedDecompositions
import DenseNumeric.Proofs.Elements
import DenseNumeric.Proofs.Truncation
import DenseNumeric.Proofs.IntegerArrays
import DenseNumeric.Proofs.OperandSymmetry
import DenseNumeric.Proofs.TransposedProduct
import DenseNumeric.Proofs.Extents
import DenseNumeric.Proofs.Stacks
import DenseNumeric.Proofs.StackedParts
import DenseNumeric.Proofs.Splits
import DenseNumeric.Proofs.TransposedStacks
import DenseNumeric.Proofs.BlockProducts
import DenseNumeric.Proofs.ZeroSigns
import DenseNumeric.Proofs.Conjugation
import DenseNumeric.Proofs.RealOperands
import DenseNumeric.Proofs.ScalarOperands
import DenseNumeric.Proofs.WorkingProducts
import DenseNumeric.Proofs.Conversions
import DenseNumeric.Proofs.Construction
import DenseNumeric.Proofs.Gatherings
import DenseNumeric.Proofs.Interchange
import DenseNumeric.Proofs.TransposedIndexing
import DenseNumeric.Proofs.Shift
import DenseNumeric.Proofs.ScaledPermutations
import DenseNumeric.Proofs.LowerBounds
import DenseNumeric.Proofs.TriangularRuns
import DenseNumeric.Proofs.TriangularArrays
import DenseNumeric.Proofs.RoundingErrors
import DenseNumeric.Proofs.ReflectedVectors
import DenseNumeric.Proofs.ScaledRows
import DenseNumeric.Proofs.FloatReflections
import DenseNumeric.Proofs.ReflectedMatrices
import DenseNumeric.Proofs.NullParts
import DenseNumeric.Proofs.FiniteReduction
import DenseNumeric.Proofs.FiniteBasis
import DenseNumeric.Proofs.LineNorms
import DenseNumeric.Proofs.Sizes
import DenseNumeric.Proofs.EuclideanNorm
import DenseNumeric.Proofs.UndefinedLines
import DenseNumeric.Proofs.InPlaceReduction
import DenseNumeric.Proofs.ShapeErrors
import DenseNumeric.Proofs.PrintedNumbers
import DenseNumeric.Proofs.ComplexLiterals
import DenseNumeric.Proofs.ArrayText
import DenseNumeric.Proofs.ScaledDivisors
import DenseNumeric.Proofs.PackedNumbers
import DenseNumeric.Proofs.ComplexQuotients
