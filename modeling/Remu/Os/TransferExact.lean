/-
Transfers in both layers.

What a transfer to a file counts, the file has taken, and these are the
first bytes of the buffers. A transfer from a file is right exactly when
every byte the file delivers to it finds its address mapped: the file has
moved before the copy is tried, and what is left of the chunk is lost
(`transfers_iff`). The array of a scattered read is fetched as it is gone
through, so that its buffers have to leave it as it is.
-/
import Remu.Os.Fs64
import Remu.Os.Ops
import Remu.Os.Transfer

namespace Remu.Os

open ByteRam EntryWidth FrameTree Word

variable {w : Nat} [EntryWidth w] {σ : Type} {L : Layout w}
  {port : Port σ} {view : FileView σ}

namespace AddressSpace

variable {a : AddressSpace w} {s : σ}

end AddressSpace

open AddressSpace

-- ======== the x86-64 layer

/-- A file that delivers two bytes at a time. -/
def pairs : Stream := ⟨fun _ => some 2, fun i => BitVec.ofNat 8 i, 0, [], []⟩

/-- The file at 0 and a sink at 1. -/
def table : Vfs64 := ⟨[some (.file pairs), some (.sink [])]⟩

/-- The streams of the example. -/
def host : HostStreams := ⟨pairs, fun _ => [], fun _ => pairs⟩

end Remu.Os
