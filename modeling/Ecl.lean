import Ecl.Hash.Readers
import Ecl.Equality.EqualpHash
import Ecl.Bds.Law
import Ecl.Clos.DispatchKey
import Ecl.Clos.Reorder
import Ecl.Number.Expt
import Ecl.Number.ByteField
import Ecl.Number.Isqrt
import Ecl.Number.Int64
import Ecl.Packages.UseGraph
import Ecl.Packages.ConflictRuns
import Ecl.Packages.Homes
import Ecl.Gfun.Invalidation
import Ecl.Gfun.SpecVector
import Ecl.Signals.Conserved
import Ecl.Arrays.Adjust
import Ecl.Arrays.BitOp
import Ecl.Arrays.AdjustArray
import Ecl.Interp.OperandLaw
import Ecl.Stacks.Resize
import Ecl.Streams.Unread
import Ecl.Streams.Echo
import Ecl.Streams.Binary
import Ecl.Reader.LabelsLaw
import Ecl.Text.NumberLaw
import Ecl.Text.SymbolLaw
import Ecl.Text.RangeDecimal
import Ecl.Text.CaseLaw
import Ecl.Types.SubtypeLaw
import Ecl.Types.CmptypeLaw
import Ecl.Types.FamilyLaw
import Ecl.Sequences.StableSort
import Ecl.Sequences.Limits
import Ecl.Sequences.Listlib
import Ecl.Predlib.Histories
import Ecl.Lambda.ListLaw
import Ecl.Environments.RunLaw
import Ecl.Reader.Comments
import Ecl.Hash.Iterate
import Ecl.Packages.Intern
import Ecl.Text.WriteArray
import Ecl.Pathname.Enough
import Ecl.Clos.Methods
import Ecl.Backquote.Quasiquote
import Ecl.Lists.Length
import Ecl.Lists.Last
import Ecl.Lists.Nreverse
import Ecl.Lists.Subst
import Ecl.Strings.Compare
import Ecl.Gfun.Records
import Ecl.Keys
