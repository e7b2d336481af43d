/-
# Memory commands

Embedding of `MemCmd` (`mem/packet.hh`, `mem/packet.cc`): the commands of packets, the table of
their attributes and of the responses to them.
-/
import Mathlib.Data.List.Basic

namespace Gem5.Mem

/-- `MemCmd::Command` -/
inductive MemCmd where
  | InvalidCmd
  | ReadReq
  | ReadResp
  | ReadRespWithInvalidate
  | WriteReq
  | WriteResp
  | WriteCompleteResp
  | WritebackDirty
  | WritebackClean
  | WriteClean
  | CleanEvict
  | SoftPFReq
  | SoftPFExReq
  | HardPFReq
  | SoftPFResp
  | HardPFResp
  | WriteLineReq
  | UpgradeReq
  | SCUpgradeReq
  | UpgradeResp
  | SCUpgradeFailReq
  | UpgradeFailResp
  | ReadExReq
  | ReadExResp
  | ReadCleanReq
  | ReadSharedReq
  | LoadLockedReq
  | StoreCondReq
  | StoreCondFailReq
  | StoreCondResp
  | SwapReq
  | SwapResp
  | MemFenceReq
  | MemSyncReq
  | MemSyncResp
  | MemFenceResp
  | CleanSharedReq
  | CleanSharedResp
  | CleanInvalidReq
  | CleanInvalidResp
  | InvalidDestError
  | BadAddressError
  | FunctionalReadError
  | FunctionalWriteError
  | PrintReq
  | FlushReq
  | InvalidateReq
  | InvalidateResp
  | HTMReq
  | HTMReqResp
  | HTMAbort
  deriving DecidableEq, Repr

/-- `MemCmd::Attribute` -/
inductive Attribute where
  | IsRead
  | IsWrite
  | IsUpgrade
  | IsInvalidate
  | IsClean
  | NeedsWritable
  | IsRequest
  | IsResponse
  | NeedsResponse
  | IsEviction
  | IsSWPrefetch
  | IsHWPrefetch
  | IsLlsc
  | HasData
  | IsError
  | IsPrint
  | IsFlush
  | FromCache
  deriving DecidableEq, Repr

namespace MemCmd

/-- The attributes in `commandInfo`. -/
def attributes : MemCmd → List Attribute
  | .InvalidCmd => []
  | .ReadReq => [.IsRead, .IsRequest, .NeedsResponse]
  | .ReadResp => [.IsRead, .IsResponse, .HasData]
  | .ReadRespWithInvalidate => [.IsRead, .IsResponse, .HasData, .IsInvalidate]
  | .WriteReq => [.IsWrite, .NeedsWritable, .IsRequest, .NeedsResponse, .HasData]
  | .WriteResp => [.IsWrite, .IsResponse]
  | .WriteCompleteResp => [.IsWrite, .IsResponse]
  | .WritebackDirty => [.IsWrite, .IsRequest, .IsEviction, .HasData, .FromCache]
  | .WritebackClean => [.IsWrite, .IsRequest, .IsEviction, .HasData, .FromCache]
  | .WriteClean => [.IsWrite, .IsRequest, .HasData, .FromCache]
  | .CleanEvict => [.IsRequest, .IsEviction, .FromCache]
  | .SoftPFReq => [.IsRead, .IsRequest, .IsSWPrefetch, .NeedsResponse]
  | .SoftPFExReq =>
      [.IsRead, .NeedsWritable, .IsInvalidate, .IsRequest, .IsSWPrefetch, .NeedsResponse]
  | .HardPFReq => [.IsRead, .IsRequest, .IsHWPrefetch, .NeedsResponse, .FromCache]
  | .SoftPFResp => [.IsRead, .IsResponse, .IsSWPrefetch, .HasData]
  | .HardPFResp => [.IsRead, .IsResponse, .IsHWPrefetch, .HasData]
  | .WriteLineReq => [.IsWrite, .NeedsWritable, .IsRequest, .NeedsResponse, .HasData]
  | .UpgradeReq =>
      [.IsInvalidate, .NeedsWritable, .IsUpgrade, .IsRequest, .NeedsResponse, .FromCache]
  | .SCUpgradeReq =>
      [.IsInvalidate, .NeedsWritable, .IsUpgrade, .IsLlsc, .IsRequest, .NeedsResponse, .FromCache]
  | .UpgradeResp => [.IsUpgrade, .IsResponse]
  | .SCUpgradeFailReq =>
      [.IsRead, .NeedsWritable, .IsInvalidate, .IsLlsc, .IsRequest, .NeedsResponse, .FromCache]
  | .UpgradeFailResp => [.IsRead, .IsResponse, .HasData]
  | .ReadExReq => [.IsRead, .NeedsWritable, .IsInvalidate, .IsRequest, .NeedsResponse, .FromCache]
  | .ReadExResp => [.IsRead, .IsResponse, .HasData]
  | .ReadCleanReq => [.IsRead, .IsRequest, .NeedsResponse, .FromCache]
  | .ReadSharedReq => [.IsRead, .IsRequest, .NeedsResponse, .FromCache]
  | .LoadLockedReq => [.IsRead, .IsLlsc, .IsRequest, .NeedsResponse]
  | .StoreCondReq => [.IsWrite, .NeedsWritable, .IsLlsc, .IsRequest, .NeedsResponse, .HasData]
  | .StoreCondFailReq => [.IsWrite, .NeedsWritable, .IsLlsc, .IsRequest, .NeedsResponse, .HasData]
  | .StoreCondResp => [.IsWrite, .IsLlsc, .IsResponse]
  | .SwapReq => [.IsRead, .IsWrite, .NeedsWritable, .IsRequest, .HasData, .NeedsResponse]
  | .SwapResp => [.IsRead, .IsWrite, .IsResponse, .HasData]
  | .MemFenceReq => [.IsRequest, .NeedsResponse]
  | .MemSyncReq => [.IsRequest, .NeedsResponse]
  | .MemSyncResp => [.IsResponse]
  | .MemFenceResp => [.IsResponse]
  | .CleanSharedReq => [.IsRequest, .IsClean, .NeedsResponse, .FromCache]
  | .CleanSharedResp => [.IsResponse, .IsClean]
  | .CleanInvalidReq => [.IsRequest, .IsInvalidate, .IsClean, .NeedsResponse, .FromCache]
  | .CleanInvalidResp => [.IsResponse, .IsInvalidate, .IsClean]
  | .InvalidDestError => [.IsResponse, .IsError]
  | .BadAddressError => [.IsResponse, .IsError]
  | .FunctionalReadError => [.IsRead, .IsResponse, .IsError]
  | .FunctionalWriteError => [.IsWrite, .IsResponse, .IsError]
  | .PrintReq => [.IsRequest, .IsPrint]
  | .FlushReq => [.IsRequest, .IsFlush, .NeedsWritable]
  | .InvalidateReq => [.IsInvalidate, .IsRequest, .NeedsWritable, .NeedsResponse, .FromCache]
  | .InvalidateResp => [.IsInvalidate, .IsResponse]
  | .HTMReq => [.IsRead, .IsRequest, .NeedsResponse]
  | .HTMReqResp => [.IsRead, .IsResponse]
  | .HTMAbort => [.IsRead, .IsRequest]

/-- `MemCmd::responseCommand`, the second column of `commandInfo`; `InvalidCmd` for the commands
that get no response. -/
def responseCommand : MemCmd → MemCmd
  | .ReadReq => .ReadResp
  | .WriteReq => .WriteResp
  | .SoftPFReq => .SoftPFResp
  | .SoftPFExReq => .SoftPFResp
  | .HardPFReq => .HardPFResp
  | .WriteLineReq => .WriteResp
  | .UpgradeReq => .UpgradeResp
  | .SCUpgradeReq => .UpgradeResp
  | .SCUpgradeFailReq => .UpgradeFailResp
  | .ReadExReq => .ReadExResp
  | .ReadCleanReq => .ReadResp
  | .ReadSharedReq => .ReadResp
  | .LoadLockedReq => .ReadResp
  | .StoreCondReq => .StoreCondResp
  | .StoreCondFailReq => .StoreCondResp
  | .SwapReq => .SwapResp
  | .MemFenceReq => .MemFenceResp
  | .MemSyncReq => .MemSyncResp
  | .CleanSharedReq => .CleanSharedResp
  | .CleanInvalidReq => .CleanInvalidResp
  | .InvalidateReq => .InvalidateResp
  | .HTMReq => .HTMReqResp
  | _ => .InvalidCmd

def testCmdAttrib (cmd : MemCmd) (attrib : Attribute) : Bool := cmd.attributes.contains attrib

def isRead (cmd : MemCmd) : Bool := cmd.testCmdAttrib .IsRead

def isWrite (cmd : MemCmd) : Bool := cmd.testCmdAttrib .IsWrite

def isUpgrade (cmd : MemCmd) : Bool := cmd.testCmdAttrib .IsUpgrade

def isInvalidate (cmd : MemCmd) : Bool := cmd.testCmdAttrib .IsInvalidate

def isClean (cmd : MemCmd) : Bool := cmd.testCmdAttrib .IsClean

def needsWritable (cmd : MemCmd) : Bool := cmd.testCmdAttrib .NeedsWritable

def isLLSC (cmd : MemCmd) : Bool := cmd.testCmdAttrib .IsLlsc

def isRequest (cmd : MemCmd) : Bool := cmd.testCmdAttrib .IsRequest

def isResponse (cmd : MemCmd) : Bool := cmd.testCmdAttrib .IsResponse

def needsResponse (cmd : MemCmd) : Bool := cmd.testCmdAttrib .NeedsResponse

def fromCache (cmd : MemCmd) : Bool := cmd.testCmdAttrib .FromCache

def isEviction (cmd : MemCmd) : Bool := cmd.testCmdAttrib .IsEviction

def hasData (cmd : MemCmd) : Bool := cmd.testCmdAttrib .HasData

def isWriteback (cmd : MemCmd) : Bool := cmd.isEviction && cmd.hasData

def isSWPrefetch (cmd : MemCmd) : Bool := cmd.testCmdAttrib .IsSWPrefetch

end MemCmd

end Gem5.Mem
