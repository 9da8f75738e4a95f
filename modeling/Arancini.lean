import Arancini.Lib.Except
import Arancini.Lib.System
import Arancini.X86.InputArch
import Arancini.Static.CallBoundary
import Arancini.Static.LowerChunk
import Arancini.Runtime.Chaining
import Arancini.Runtime.Threads
import Arancini.Ir.Deadflags
import Arancini.Ir.UseLists
import Arancini.Ir.DefaultBuilder
import Arancini.Riscv.Sync
import Arancini.X86.EvalOrder
import Arancini.Riscv.AdcSbb
import Arancini.Riscv.WriteReg
import Arancini.Riscv.GenConstant
import Arancini.Riscv.ConstantRun
import Arancini.Riscv.Packed
import Arancini.Riscv.Compare
import Arancini.Riscv.Shift
import Arancini.Riscv.BitField
import Arancini.Riscv.Atomic
import Arancini.Riscv.Fold
import Arancini.Riscv.ExitProtocol
import Arancini.Static.Fences
import Arancini.Runtime.CodeBuffer
import Arancini.Runtime.GuestBreak
import Arancini.Runtime.GuestStack
import Arancini.Runtime.TlsLayout
import Arancini.Txlat.Placement
import Arancini.X86.RegNames
import Arancini.X86.Shifts
import Arancini.X86.Rotates
import Arancini.X86.Downcast
import Arancini.X86.PackedShift
import Arancini.X86.FpVec
import Arancini.X86.WriteFlags
import Arancini.X86.BitTest
import Arancini.X86.Shuffle
import Arancini.X86.MulDiv
import Arancini.X86.RepCmps
import Arancini.X86.StackRight
import Arancini.X86.Extended
import Arancini.X86.Lock
import Arancini.Arm64.Immediate
import Arancini.Arm64.Labels
import Arancini.Arm64.LocalVars
import Arancini.Llvm.Flags
import Arancini.Llvm.Division
import Arancini.Llvm.Shift
import Arancini.Llvm.Atomic
import Arancini.X86Host.ContextSound
import Arancini.X86Host.InPlace
import Arancini.Ir.Allocator
import Arancini.Elf.Parse
import Arancini.Elf.Relr
import Arancini.Txlat.FunctionDecls
