import Presolve.Log.Session
import Presolve.Model.Feasible
import Presolve.Model.Tree
import Presolve.Proofs.Fold.Equivalence
import Presolve.Proofs.Fold.Events
import Presolve.Proofs.Fold.Failure
import Presolve.Proofs.Fold.Incremental
import Presolve.Proofs.Fold.Overflow
import Presolve.Proofs.Fold.Permutation
import Presolve.Proofs.Fold.Reference
import Presolve.Proofs.Fold.Repeat
import Presolve.Proofs.Fold.Values
import Presolve.Proofs.Fold.Record
import Presolve.Proofs.Fold.Log
import Presolve.Proofs.Fold.Tightening
import Presolve.Proofs.Fold.Tolerance
import Presolve.Proofs.Fold.Degenerate
import Presolve.Proofs.Fold.Causes
import Presolve.Proofs.Model.Address
import Presolve.Proofs.Model.InPlace
import Presolve.Proofs.Model.Numbers
import Presolve.Proofs.Model.Visible
import Presolve.Proofs.Poly.Extension
import Presolve.Proofs.Poly.Product
import Presolve.Proofs.Poly.Shape
import Presolve.Proofs.Poly.Support
import Presolve.Proofs.Poly.Scaling
import Presolve.Proofs.Poly.Comparison
import Presolve.Proofs.Model.Path
import Presolve.Proofs.Model.Declared
import Presolve.Proofs.Model.Names
import Presolve.Proofs.Log.Requests
import Presolve.Proofs.Poly.Variables
import Presolve.Proofs.Fold.Locality
import Presolve.Proofs.Fold.Consistency
