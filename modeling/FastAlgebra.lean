import FastAlgebra.Main
import FastAlgebra.Series.Exponential
import FastAlgebra.PermCode
import FastAlgebra.Factorials
import FastAlgebra.Factorials.InPlace
import FastAlgebra.Poly.Display
import FastAlgebra.ProductTree
import FastAlgebra.ProductTree.Spans
import FastAlgebra.KernelField
import FastAlgebra.Product.Karatsuba
import FastAlgebra.Product.Buffer
import FastAlgebra.Product.Real
import FastAlgebra.Product.Modular
import FastAlgebra.Transform.Request
import FastAlgebra.Nimber
import FastAlgebra.Complex
import FastAlgebra.Gaussian
import FastAlgebra.Integer
import FastAlgebra.Residue.Inverse
import FastAlgebra.Residue.RootOfUnity
import FastAlgebra.Residue.Words
import FastAlgebra.Residue.Expression
import FastAlgebra.CoeffList
import FastAlgebra.Dyadic
import FastAlgebra.Extent
import FastAlgebra.Residue.Basic
import FastAlgebra.CoeffRing
import FastAlgebra.Event
import FastAlgebra.Text.Alphanumeric
import FastAlgebra.Text.Blank
import FastAlgebra.Text.Bytes
import FastAlgebra.Proofs.CoeffRing
import FastAlgebra.Proofs.Dyadic
import FastAlgebra.Proofs.Entries
import FastAlgebra.Proofs.CoeffList
import FastAlgebra.Proofs.Product
import FastAlgebra.Proofs.Product.Buffer
import FastAlgebra.Proofs.Residue.Ring
import FastAlgebra.Proofs.Residue.Inverse
import FastAlgebra.Proofs.Residue.RootOfUnity
import FastAlgebra.Proofs.Residue.Words
import FastAlgebra.Proofs.Residue.Expression
import FastAlgebra.Proofs.Transform.Reversal
import FastAlgebra.Proofs.Transform.Fourier
import FastAlgebra.Proofs.Transform.Scalar
import FastAlgebra.Proofs.Transform.Tables
import FastAlgebra.Proofs.Transform.Correctness
import FastAlgebra.Proofs.Residue.Kernels
import FastAlgebra.Proofs.Nimber.Field
import FastAlgebra.Proofs.KernelField
import FastAlgebra.Proofs.Antiderivative
import FastAlgebra.Proofs.Poly.Basic
import FastAlgebra.Proofs.Poly.Division
import FastAlgebra.Proofs.RootProduct
import FastAlgebra.Proofs.ProductTree
import FastAlgebra.Proofs.Nimber.LeastExcluded
import FastAlgebra.Proofs.Interpolation
import FastAlgebra.Proofs.Interpolation.Refusals
import FastAlgebra.Proofs.ProductTree.Spans
import FastAlgebra.Proofs.InverseTable
import FastAlgebra.Proofs.Factorials
import FastAlgebra.Proofs.Complex
import FastAlgebra.Proofs.Transform.Complex
import FastAlgebra.Product.Real.InPlace
import FastAlgebra.Product.Modular.InPlace
import FastAlgebra.Proofs.Product.Modular.InPlace
import FastAlgebra.Proofs.Product.Modular
import FastAlgebra.Proofs.Product.Real
import FastAlgebra.Proofs.Series.Basic
import FastAlgebra.Proofs.Series.Arithmetic
import FastAlgebra.Proofs.Series.Exponential
import FastAlgebra.Proofs.Series.Calculus
import FastAlgebra.Proofs.Series.Power
import FastAlgebra.Proofs.Transform.RoundTrip
import FastAlgebra.Proofs.Transform.Product
import FastAlgebra.Proofs.Transform.InPlace
import FastAlgebra.Proofs.Transform.TableInvariant
import FastAlgebra.Proofs.Transform.Capacity
import FastAlgebra.Proofs.Residue.SeriesInverse
import FastAlgebra.Proofs.SeriesInverse.Newton
import FastAlgebra.PermCode.Mask
import FastAlgebra.Proofs.PermCode.Inversions
import FastAlgebra.Proofs.PermCode.Words
import FastAlgebra.Proofs.PermCode.Mask
import FastAlgebra.Poly.Expression
import FastAlgebra.Proofs.Poly.Operations
import FastAlgebra.Proofs.Poly.Raw
import FastAlgebra.Proofs.Poly.Expression
import FastAlgebra.Proofs.Series.Refusals
import FastAlgebra.Proofs.Residue.Words.Inverse
import FastAlgebra.Residue.Words.RootOfUnity
import FastAlgebra.Proofs.Residue.Words.RootOfUnity
import FastAlgebra.Proofs.PermCode.Refusals
import FastAlgebra.Proofs.Residue.TrialDivision
import FastAlgebra.Proofs.Residue.PrimitiveRoot
import FastAlgebra.Residue.Words.PrimitiveRoot
import FastAlgebra.Proofs.Residue.Words.PrimitiveRoot
import FastAlgebra.Proofs.Residue.InverseTable
import FastAlgebra.Nimber.DigitTable
import FastAlgebra.Nimber.Words
import FastAlgebra.Proofs.Nimber.FermatPower
import FastAlgebra.Proofs.Nimber.DigitTable
import FastAlgebra.Proofs.Nimber.Words
import FastAlgebra.DigitLoop
import FastAlgebra.Proofs.DigitLoop
