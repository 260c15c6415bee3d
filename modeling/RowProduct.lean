import RowProduct.Config.Reading
import RowProduct.Description
import RowProduct.Formula
import RowProduct.Proofs.Groups
import RowProduct.Proofs.Lifecycle
import RowProduct.Scripted
import RowProduct.Proofs.Rounding
import RowProduct.Proofs.ScopeFree
import RowProduct.Proofs.Shielding
import RowProduct.Proofs.Matching
import RowProduct.Proofs.Combinations
import RowProduct.Proofs.Malformed
import RowProduct.Proofs.Origins
import RowProduct.Proofs.Pushdown
import RowProduct.Proofs.Projections
import RowProduct.Proofs.ConditionalMerge
import RowProduct.Proofs.Termination
import RowProduct.Proofs.Overlay
import RowProduct.Proofs.Plans
