/-!
# Commands of packets

The commands of the packets that caches and crossbars exchange, with the attributes and the response
of each (`commandInfo`).
-/

namespace GuardianCouncil.Mem

/-- `MemCmd::Command`. -/
inductive MemCmd
  | invalidCmd
  | readReq
  | readResp
  | readRespWithInvalidate
  | writeReq
  | writeResp
  | writebackDirty
  | writebackClean
  | cleanEvict
  | softPFReq
  | hardPFReq
  | softPFResp
  | hardPFResp
  | writeLineReq
  | upgradeReq
  | scUpgradeReq
  | upgradeResp
  | scUpgradeFailReq
  | upgradeFailResp
  | readExReq
  | readExResp
  | readCleanReq
  | readSharedReq
  | loadLockedReq
  | storeCondReq
  | storeCondFailReq
  | storeCondResp
  | swapReq
  | swapResp
  | messageReq
  | messageResp
  | memFenceReq
  | memFenceResp
  | invalidDestError
  | badAddressError
  | functionalReadError
  | functionalWriteError
  | printReq
  | flushReq
  | invalidateReq
  | invalidateResp
deriving DecidableEq

/-- `MemCmd::Attribute`. -/
inductive Attribute
  | isRead
  | isWrite
  | isUpgrade
  | isInvalidate
  | needsWritable
  | isRequest
  | isResponse
  | needsResponse
  | isEviction
  | isSWPrefetch
  | isHWPrefetch
  | isLlsc
  | hasData
  | isError
  | isPrint
  | isFlush
  | fromCache
deriving DecidableEq

namespace MemCmd

/-- `commandInfo`: the attributes of a command, and its response. -/
def commandInfo : MemCmd → List Attribute × MemCmd
  | .invalidCmd => ([], .invalidCmd)
  | .readReq => ([.isRead, .isRequest, .needsResponse], .readResp)
  | .readResp => ([.isRead, .isResponse, .hasData], .invalidCmd)
  | .readRespWithInvalidate => ([.isRead, .isResponse, .hasData, .isInvalidate], .invalidCmd)
  | .writeReq => ([.isWrite, .needsWritable, .isRequest, .needsResponse, .hasData], .writeResp)
  | .writeResp => ([.isWrite, .isResponse], .invalidCmd)
  | .writebackDirty => ([.isWrite, .isRequest, .isEviction, .hasData, .fromCache], .invalidCmd)
  | .writebackClean => ([.isWrite, .isRequest, .isEviction, .hasData, .fromCache], .invalidCmd)
  | .cleanEvict => ([.isRequest, .isEviction, .fromCache], .invalidCmd)
  | .softPFReq => ([.isRead, .isRequest, .isSWPrefetch, .needsResponse], .softPFResp)
  | .hardPFReq => ([.isRead, .isRequest, .isHWPrefetch, .needsResponse, .fromCache], .hardPFResp)
  | .softPFResp => ([.isRead, .isResponse, .isSWPrefetch, .hasData], .invalidCmd)
  | .hardPFResp => ([.isRead, .isResponse, .isHWPrefetch, .hasData], .invalidCmd)
  | .writeLineReq => ([.isWrite, .needsWritable, .isRequest, .needsResponse, .hasData], .writeResp)
  | .upgradeReq =>
    ([.isInvalidate, .needsWritable, .isUpgrade, .isRequest, .needsResponse, .fromCache], .upgradeResp)
  | .scUpgradeReq =>
    ([.isInvalidate, .needsWritable, .isUpgrade, .isLlsc, .isRequest, .needsResponse, .fromCache], .upgradeResp)
  | .upgradeResp => ([.isUpgrade, .isResponse], .invalidCmd)
  | .scUpgradeFailReq =>
    ([.isRead, .needsWritable, .isInvalidate, .isLlsc, .isRequest, .needsResponse, .fromCache], .upgradeFailResp)
  | .upgradeFailResp => ([.isRead, .isResponse, .hasData], .invalidCmd)
  | .readExReq =>
    ([.isRead, .needsWritable, .isInvalidate, .isRequest, .needsResponse, .fromCache], .readExResp)
  | .readExResp => ([.isRead, .isResponse, .hasData], .invalidCmd)
  | .readCleanReq => ([.isRead, .isRequest, .needsResponse, .fromCache], .readResp)
  | .readSharedReq => ([.isRead, .isRequest, .needsResponse, .fromCache], .readResp)
  | .loadLockedReq => ([.isRead, .isLlsc, .isRequest, .needsResponse], .readResp)
  | .storeCondReq =>
    ([.isWrite, .needsWritable, .isLlsc, .isRequest, .needsResponse, .hasData], .storeCondResp)
  | .storeCondFailReq =>
    ([.isWrite, .needsWritable, .isLlsc, .isRequest, .needsResponse, .hasData], .storeCondResp)
  | .storeCondResp => ([.isWrite, .isLlsc, .isResponse], .invalidCmd)
  | .swapReq =>
    ([.isRead, .isWrite, .needsWritable, .isRequest, .hasData, .needsResponse], .swapResp)
  | .swapResp => ([.isRead, .isWrite, .isResponse, .hasData], .invalidCmd)
  | .messageReq => ([.isWrite, .isRequest, .needsResponse, .hasData], .messageResp)
  | .messageResp => ([.isWrite, .isResponse], .invalidCmd)
  | .memFenceReq => ([.isRequest, .needsResponse], .memFenceResp)
  | .memFenceResp => ([.isResponse], .invalidCmd)
  | .invalidDestError => ([.isResponse, .isError], .invalidCmd)
  | .badAddressError => ([.isResponse, .isError], .invalidCmd)
  | .functionalReadError => ([.isRead, .isResponse, .isError], .invalidCmd)
  | .functionalWriteError => ([.isWrite, .isResponse, .isError], .invalidCmd)
  | .printReq => ([.isRequest, .isPrint], .invalidCmd)
  | .flushReq => ([.isRequest, .isFlush, .needsWritable], .invalidCmd)
  | .invalidateReq =>
    ([.isInvalidate, .isRequest, .needsWritable, .needsResponse, .fromCache], .invalidateResp)
  | .invalidateResp => ([.isInvalidate, .isResponse], .invalidCmd)

variable (cmd : MemCmd)

def testCmdAttrib (attrib : Attribute) : Bool := attrib ∈ cmd.commandInfo.1

def isRead : Bool := cmd.testCmdAttrib .isRead
def isWrite : Bool := cmd.testCmdAttrib .isWrite
def isUpgrade : Bool := cmd.testCmdAttrib .isUpgrade
def isRequest : Bool := cmd.testCmdAttrib .isRequest
def isResponse : Bool := cmd.testCmdAttrib .isResponse
def needsWritable : Bool := cmd.testCmdAttrib .needsWritable
def needsResponse : Bool := cmd.testCmdAttrib .needsResponse
def isInvalidate : Bool := cmd.testCmdAttrib .isInvalidate
def isEviction : Bool := cmd.testCmdAttrib .isEviction
def fromCache : Bool := cmd.testCmdAttrib .fromCache
def hasData : Bool := cmd.testCmdAttrib .hasData
def isLLSC : Bool := cmd.testCmdAttrib .isLlsc

/-- A writeback is an eviction that carries data. -/
def isWriteback : Bool := cmd.isEviction && cmd.hasData

def responseCommand : MemCmd := cmd.commandInfo.2

end MemCmd

end GuardianCouncil.Mem
