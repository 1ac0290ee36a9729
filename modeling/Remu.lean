import Remu.X64.ControlRegs
import Remu.X64.Division
import Remu.X64.NearCall
import Remu.Usermode.Disjoint
import Remu.Os.Confined
import Remu.Os.Agreement
import Remu.Arm32.Banking
import Remu.Arm32.Transparency
import Remu.Os.Vmas
import Remu.X64.EffectiveAddr
import Remu.X64.WalkEffect
import Remu.X32.EffectiveAddr
import Remu.X32.DescriptorLaw
import Remu.X64.FlagGuard
import Remu.X64.Delivery
import Remu.X64.Exchange
import Remu.X64.CarryChain
import Remu.Rotates
import Remu.DoubleShifts
import Remu.PackedDecimal
import Remu.X32.Division
import Remu.Arm32.BlockTransfer
import Remu.Arm32.ExceptionReturn
import Remu.IoPermission
import Remu.Os.Ranges
import Remu.Os.Generated
import Remu.Os.Dents
import Remu.Os.EntryStack
import Remu.Os.TransferExact
import Remu.X86.Step
import Remu.Usermode.Vectored
import Remu.Usermode.WideAccess
import Remu.X64.WideRam
import Remu.Arm32.Exact
import Remu.Mos6502.Arith
import Remu.Mos6502.RoundTrip
import Remu.Mos6502.SystemBus
import Remu.Os.LoaderExact
import Remu.Cores
import Remu.X32.JitSound
import Remu.X32.Coherence
import Remu.Arm32.Confinement
