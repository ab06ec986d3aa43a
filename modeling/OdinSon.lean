import OdinSon.Lib.MachInt
import OdinSon.Lib.Worklist
import OdinSon.Lib.Footprint
import OdinSon.Lib.UnionFind
import OdinSon.Lib.SwapRemove
import OdinSon.Lib.Precedence
import OdinSon.Lib.Liveness
import OdinSon.Bac.Datatype
import OdinSon.Bac.Lattice
import OdinSon.Bac.LatticeOrder
import OdinSon.Bac.Graph
import OdinSon.Bac.Edit
import OdinSon.Bac.EditLinks
import OdinSon.Bac.EditMerge
import OdinSon.Bac.EditRuns
import OdinSon.Bac.EditIntern
import OdinSon.Bac.UseArrays
import OdinSon.Bac.WorkQueue
import OdinSon.Bac.SimdSearch
import OdinSon.Utils.Arna
import OdinSon.Utils.BitArr
import OdinSon.Bac.CompactIso
import OdinSon.Ssa.FoldBinOp
import OdinSon.Ssa.FoldWidth
import OdinSon.Ssa.FoldLattice
import OdinSon.Ssa.FoldLatticeSound
import OdinSon.Ssa.FoldLatticeBits
import OdinSon.Ssa.FoldLatticeSigned
import OdinSon.Ssa.FoldLatticeMono
import OdinSon.Ssa.FoldLatticeOrder
import OdinSon.Ssa.Sccp
import OdinSon.Ssa.SccpFits
import OdinSon.Ssa.SccpMono
import OdinSon.Ssa.SccpSolve
import OdinSon.Ssa.Exec
import OdinSon.Ssa.SccpExec
import OdinSon.Ssa.SccpPeep
import OdinSon.Ssa.Loopopt
import OdinSon.Ssa.LoopElim
import OdinSon.Ssa.LoopIdiom
import OdinSon.Ssa.LoopIdiomSound
import OdinSon.Bac.Alias
import OdinSon.Bac.AliasSound
import OdinSon.Ssa.StoreElim
import OdinSon.Bac.OffsetIter
import OdinSon.Ssa.MemoptSlots
import OdinSon.Ssa.LocalForward
import OdinSon.Ssa.LocalForwardWalk
import OdinSon.Ssa.LocalForwardSound
import OdinSon.Regalloc.Coalesce
import OdinSon.Regalloc.Liveness
import OdinSon.Regalloc.LivenessExact
import OdinSon.Regalloc.Coloring
import OdinSon.Regalloc.ColoringSound
import OdinSon.Bac.SimdIter
import OdinSon.Regalloc.LinearScan
import OdinSon.Regalloc.Intervals
import OdinSon.Regalloc.LinearScanActive
import OdinSon.Regalloc.LinearScanSound
import OdinSon.Bac.ScheduleBlock
import OdinSon.Codegen.Frame
import OdinSon.Codegen.Amd64Frame
import OdinSon.Codegen.Cfi
import OdinSon.Codegen.Amd64Cfi
import OdinSon.Codegen.ArmFrame
import OdinSon.Codegen.ArmSaved
import OdinSon.Codegen.ReduceAdd
import OdinSon.Codegen.Shift
import OdinSon.Lib.Bytes
import OdinSon.Odinc.Types
import OdinSon.Odinc.WasmObjectSound
import OdinSon.Odinc.GlobalsRuns
import OdinSon.Odinc.ConstantsSound
import OdinSon.Odinc.InliningKeeps
import OdinSon.Odinc.Returns
import OdinSon.Wasm.Branch
import OdinSon.Wasm.MemArg
import OdinSon.Ssa.Memmove
import OdinSon.Ssa.StoreCoalesce
import OdinSon.Ssa.LoadForward
import OdinSon.Codegen.Amd64AddressExact
import OdinSon.Codegen.Amd64FoldReads
import OdinSon.Codegen.Amd64Align
import OdinSon.Codegen.Amd64SplitFrame
import OdinSon.Bac.IdomRuns
import OdinSon.Codegen.Amd64Encode
import OdinSon.Codegen.ArmConst
import OdinSon.Codegen.ArmImm
import OdinSon.Ssa.PeepDatatype
import OdinSon.Codegen.Leb
import OdinSon.Odinc.DebugLoc
import OdinSon.Odinc.DebugLine
import OdinSon.Bac.LatticeLaws
import OdinSon.Bac.OffsetIterExact
import OdinSon.Ssa.Arbitrary
import OdinSon.Codegen.XelpAddress
import OdinSon.Codegen.XelpSend
import OdinSon.Odinc.RangeLoop
import OdinSon.Odinc.SccOrderSound
import OdinSon.Odinc.TypeLayoutRuns
