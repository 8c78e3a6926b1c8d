import DenseLinear.Scalar
import DenseLinear.Steps
import DenseLinear.Error
import DenseLinear.Event
import DenseLinear.Vec.Basic
import DenseLinear.Vec.Product
import DenseLinear.Mat.Basic
import DenseLinear.Mat.RowOps
import DenseLinear.Mat.Product
import DenseLinear.RowReduction
import DenseLinear.Subspace
import DenseLinear.PartialPivot
import DenseLinear.Determinant
import DenseLinear.Inverse
import DenseLinear.Factor.Triangular
import DenseLinear.Factor.Orthogonal
import DenseLinear.Spectrum.Iteration
import DenseLinear.Spectrum.Eigenspace
import DenseLinear.Spectrum.Diagonalization
import DenseLinear.Decimal.Binary
import DenseLinear.Decimal.Shortest
import DenseLinear.Decimal.Places
import DenseLinear.Decimal.Text
import DenseLinear.Rounding
import DenseLinear.Dense.Basic
import DenseLinear.Dense.Access
import DenseLinear.Dense.Vector
import DenseLinear.Dense.Product
import DenseLinear.Dense.Reduction
import DenseLinear.Dense.Solve
import DenseLinear.Dense.Spectrum
import DenseLinear.Dense.Text
import DenseLinear.Storage.Checked
import DenseLinear.Storage.Sizes
import DenseLinear.Storage.Access
import DenseLinear.Storage.Build
import DenseLinear.Storage.Reduction
import DenseLinear.Storage.Elimination
import DenseLinear.Storage.Triangular
import DenseLinear.Storage.Orthogonal
import DenseLinear.Storage.Spectrum
import DenseLinear.Proofs.Exact
import DenseLinear.Proofs.Matrix
import DenseLinear.Proofs.ProductLaws
import DenseLinear.Proofs.RowEquivalence
import DenseLinear.Proofs.Pivot
import DenseLinear.Proofs.Inverse
import DenseLinear.Proofs.ChangeOfBasis
import DenseLinear.Proofs.PermutationMatrix
import DenseLinear.Proofs.RowReduction
import DenseLinear.Proofs.UnitColumns
import DenseLinear.Proofs.EchelonForm
import DenseLinear.Proofs.Rank
import DenseLinear.Proofs.MachineNumbers
import DenseLinear.Proofs.RoundedProducts
import DenseLinear.Proofs.RoundedReduction
import DenseLinear.Proofs.Triangular
import DenseLinear.Proofs.Substitution
import DenseLinear.Proofs.LinearSystem
import DenseLinear.Proofs.Singularity
import DenseLinear.Proofs.Determinant
import DenseLinear.Proofs.LeadingBlocks
import DenseLinear.Proofs.Orthogonal
import DenseLinear.Proofs.FactorUniqueness
import DenseLinear.Proofs.Similarity
import DenseLinear.Proofs.IterationRuns
import DenseLinear.Proofs.TriangularIteration
import DenseLinear.Proofs.NullSpace
import DenseLinear.Proofs.BasisLists
import DenseLinear.Proofs.Embedding
import DenseLinear.Proofs.Diagonalization
import DenseLinear.Proofs.EigenvectorGroups
import DenseLinear.Proofs.EigenvectorCount
import DenseLinear.Proofs.SymmetricSpectrum
import DenseLinear.Proofs.SettledDiagonal
import DenseLinear.Proofs.RepeatedReduction
import DenseLinear.Proofs.SingularityTests
import DenseLinear.Proofs.RowSpace
import DenseLinear.Proofs.Subspaces
import DenseLinear.Proofs.NullSpaceBasis
import DenseLinear.Proofs.EigenspaceBasis
import DenseLinear.Proofs.DiagonalMatrices
import DenseLinear.Proofs.SpanDistance
import DenseLinear.Proofs.DiagonalDominance
import DenseLinear.Proofs.DominantElimination
import DenseLinear.Proofs.Storage.Checked
import DenseLinear.Proofs.Storage.Flat
import DenseLinear.Proofs.Storage.Access
import DenseLinear.Proofs.Storage.Build
import DenseLinear.Proofs.Storage.Reduction
import DenseLinear.Proofs.Storage.Elimination
import DenseLinear.Proofs.Storage.Triangular
import DenseLinear.Proofs.Storage.Orthogonal
import DenseLinear.Proofs.Storage.Spectrum
import DenseLinear.Proofs.Storage.Dense
import DenseLinear.Proofs.Storage.Faults
import DenseLinear.Proofs.Storage.Sizes
import DenseLinear.Proofs.Storage.Safety
import DenseLinear.Proofs.Storage.Obtainable
import DenseLinear.Proofs.Storage.Refusals
import DenseLinear.Proofs.Storage.SizeErrors
import DenseLinear.Proofs.Storage.RoundTrips
import DenseLinear.Proofs.Projection
import DenseLinear.Proofs.MachineRounding
import DenseLinear.Proofs.MachineValues
import DenseLinear.Proofs.PowersOfTen
import DenseLinear.Proofs.RoundedPlaces
import DenseLinear.Proofs.ShortestDigits
import DenseLinear.Proofs.PlainText
import DenseLinear.Proofs.MatrixText
import DenseLinear.Proofs.PivotGrowth
