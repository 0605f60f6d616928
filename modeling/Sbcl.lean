import Sbcl.Bignum.Ratio
import Sbcl.Compiler.BitopsBoundsExact
import Sbcl.Compiler.DivisibilityTestCorrect
import Sbcl.Compiler.FloorTransformsCorrect
import Sbcl.Compiler.IntervalSets
import Sbcl.Compiler.IntervalUntruncate
import Sbcl.Compiler.MaskShiftCorrect
import Sbcl.Compiler.NegateLvarCorrect
import Sbcl.Compiler.ShiftDeriveTypeCorrect
import Sbcl.Compiler.SsetCorrect
import Sbcl.Compiler.Stack
import Sbcl.Compiler.XrefCorrect
import Sbcl.Concurrency.FrlockCorrect
import Sbcl.Concurrency.MutexCorrect
import Sbcl.Concurrency.QueueCorrect
import Sbcl.Concurrency.RwlockCorrect
import Sbcl.Concurrency.SemaphoreCorrect
import Sbcl.Debug.FixupLocsCorrect
import Sbcl.ExternalFormats.UnibyteDecodeCorrect
import Sbcl.ExternalFormats.UnibyteEncodeCorrect
import Sbcl.ExternalFormats.Utf8CrlfCorrect
import Sbcl.ExternalFormats.Utf8EncodeCorrect
import Sbcl.Globaldb.InfoRoundTrip
import Sbcl.Globaldb.InfoVectorCorrect
import Sbcl.Lockless.LflistCorrect
import Sbcl.Lockless.LflistDeletions
import Sbcl.Lockless.SolistCorrect
import Sbcl.Lockless.SolistFixnum
import Sbcl.Lockless.SolistSearch
import Sbcl.Numbers.FloatRatioCorrect
import Sbcl.Numbers.IsqrtCorrect
import Sbcl.Numbers.PsxhashCorrect
import Sbcl.Numbers.RandomSeed
import Sbcl.Numbers.RangeCorrect
import Sbcl.Numbers.TimesFixnumCorrect
import Sbcl.Packages.Fastrem
import Sbcl.Packages.PackageCorrect
import Sbcl.Pathnames.MatchCorrect
import Sbcl.Pathnames.Native
import Sbcl.Printer.FlonumPosition
import Sbcl.Printer.FlonumShortest
import Sbcl.Reader.BackquoteCorrect
import Sbcl.Reader.FloatCorrect
import Sbcl.Reader.ParseIntegerCorrect
import Sbcl.Runtime.HashSetCorrect
import Sbcl.Sequences.BitPosCorrect
import Sbcl.Sequences.SortCorrect
import Sbcl.Sequences.SxhashBits
import Sbcl.Timers.HeapCorrect
import Sbcl.Tree.AvltreeCorrect
import Sbcl.Tree.BrothertreeFind
import Sbcl.Tree.RedblackCorrect
import Sbcl.Types.RangeDecisions
import Sbcl.Types.XsetCorrect
import Sbcl.Unicode.NormalizeCorrect
