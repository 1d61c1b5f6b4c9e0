import Luatier.Runtime.TableHistory
import Luatier.Runtime.StringTable
import Luatier.Stdlib.DumpTruncated
import Luatier.Stdlib.Traversal
import Luatier.Stdlib.Gsub
import Luatier.Stdlib.UnpackSafety
import Luatier.Vm.Indexing
import Luatier.Vm.SharedUpvals
import Luatier.Gc.CollectionSafety
import Luatier.Gc.IncrementalSafety
import Luatier.Vm.ForLoop
import Luatier.Gc.Finalizable
import Luatier.Gc.WeakEntries
import Luatier.Gc.OpenUpvals
import Luatier.Vm.ProtectedCalls
import Luatier.Vm.ApiCalls
import Luatier.Vm.HookEvents
import Luatier.Vm.Interrupted
import Luatier.Vm.Comparisons
import Luatier.Frontend.PrinterSpec
import Luatier.Frontend.Sema
import Luatier.Frontend.SemaSpec
import Luatier.Frontend.Lowering
import Luatier.Frontend.GotoTargets
import Luatier.Frontend.ExprCorrect
import Luatier.Stdlib.TableArithmetic
import Luatier.Stdlib.TableList
import Luatier.Stdlib.SortSafety
import Luatier.Gc.WeakModes
import Luatier.Runtime.NumberStrings
import Luatier.Stdlib.Quote
import Luatier.Frontend.NumeralTokens
import Luatier.Gc.FinalizerRuns
import Luatier.Vm.FrameBounds
import Luatier.Vm.CallProtocol
import Luatier.Vm.Safepoints
import Luatier.Vm.Yield
import Luatier.Stdlib.ToNumber
import Luatier.Vm.StringOrder
import Luatier.Vm.Coercion
import Luatier.Vm.ApiStack
import Luatier.Frontend.NumeralRuns
import Luatier.Stdlib.IntegerConversions
import Luatier.Stdlib.Utf8RoundTrip
import Luatier.Stdlib.MatchDepth
import Luatier.Stdlib.FirstOutcome
import Luatier.Vm.ChunkNames
import Luatier.Frontend.LongBrackets
import Luatier.Frontend.AssignMeaning
import Luatier.Frontend.JumpMeaning
import Luatier.Frontend.LoopMeaning
import Luatier.Frontend.ForMeaning
import Luatier.Frontend.ForInMeaning
import Luatier.Frontend.ChunkCorrect
