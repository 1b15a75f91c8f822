import Manticore.BomOpt.DeadFunsProofs
import Manticore.Translate.Equality
import Manticore.CpsOpt.ReflowProofs
import Manticore.Translate.PTupExnProofs
import Manticore.CfgOpt.ImplementCallsProofs
import Manticore.AstOpt.TranslatePCaseProofs
import Manticore.CpsOpt.FreeVarsProofs
import Manticore.Typechecker.UnifyRestore
import Manticore.Typechecker.SchemeProofs
import Manticore.Match.Compile
import Manticore.Match.Inexhaustive
import Manticore.Codegen.HeapCheckProofs
import Manticore.BomOpt.CondContract
import Manticore.Prim.PrimUtil
import Manticore.ParallelRt.AllocRuns
import Manticore.BomOpt.LiteralCaseCorrect
import Manticore.ParallelRt.GlobalScanRuns
import Manticore.ParallelRt.ForwardRaceRuns
import Manticore.ParallelRt.LandingPad
import Manticore.ParallelRt.AsyncRequest
import Manticore.Parray.Filter
import Manticore.Parray.ScanLazy
import Manticore.ParallelRt.GlobalGCRuns
import Manticore.Cml.MVar
import Manticore.ImplicitThread.ParallelSuspension
import Manticore.ImplicitThread.MultilispFuture
import Manticore.Parray.SegReduce
import Manticore.Cml.FanIn
import Manticore.Cml.PlainChan
import Manticore.Cml.ChanQueue
import Manticore.Cml.CVar
import Manticore.ImplicitThread.Cancelation
import Manticore.Parray.NestedJoins
import Manticore.Parray.RopePair
import Manticore.Parray.Range
import Manticore.Parray.PrefixSums
import Manticore.Parray.Foreach
import Manticore.Parray.Balance
import Manticore.Translate.FlattenRep
import Manticore.Translate.NestedPTup
import Manticore.Common.FloatLitBytes
import Manticore.Common.FloatLitOrder
import Manticore.Scheduler.WorkStealingDequeRoots
import Manticore.Scheduler.WorkStealingRuns
import Manticore.Scheduler.VProcQueueOps
import Manticore.Scheduler.RoundRobinProofs
import Manticore.Synch.Cilk5DequeProofs
import Manticore.Synch.SetOnceMem
import Manticore.Memo.DynamicMemoTableProofs
import Manticore.Scheduler.Claims
import Manticore.CpsOpt.BranchElimProofs
import Manticore.CfgOpt.ContractProofs
import Manticore.Sequential.LeftPriorityQ
