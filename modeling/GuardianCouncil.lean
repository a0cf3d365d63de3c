import GuardianCouncil.SecureLog.Release
import GuardianCouncil.SecureLog.Commit
import GuardianCouncil.SecureLog.Messages
import GuardianCouncil.ShadowStack.Parallel
import GuardianCouncil.EventQueue.Order
import GuardianCouncil.O3.RenameRestore
import GuardianCouncil.Minor.Forwarding
import GuardianCouncil.LSQUnit.Read
import GuardianCouncil.Cache.LoadLocked
import GuardianCouncil.Cache.Targets
import GuardianCouncil.Cache.Bookkeeping
import GuardianCouncil.Cache.LRU
import GuardianCouncil.SnoopFilter.Holders
import GuardianCouncil.PacketQueue.Order
import GuardianCouncil.SecureLog.Histogram
import GuardianCouncil.Mem.LoadLocked
import GuardianCouncil.PageTable.Refinement
import GuardianCouncil.AddrRange.Map
import GuardianCouncil.Sanitizer.Shadow
import GuardianCouncil.Trie.Runs
import GuardianCouncil.StackDist.Runs
import GuardianCouncil.SecureLog.Counter
import GuardianCouncil.IQ.Wakeup
import GuardianCouncil.Kernels.Cfi
import GuardianCouncil.Kernels.Rowhammer
import GuardianCouncil.O3.RobSquash
import GuardianCouncil.O3.RobCredit
import GuardianCouncil.XBar.Retry
import GuardianCouncil.O3.OldestReady
import GuardianCouncil.BPred.Indirect
import GuardianCouncil.BPred.RasRepair
import GuardianCouncil.BPred.Tournament
import GuardianCouncil.LTage.PathHash
import GuardianCouncil.LTage.Allocation
import GuardianCouncil.LTage.Squash
import GuardianCouncil.LTage.Histories
import GuardianCouncil.O3.StoreSet
import GuardianCouncil.Cache.Flags
import GuardianCouncil.Minor.Buffers
import GuardianCouncil.Str.Tokenize
import GuardianCouncil.AddrRange.Partition
import GuardianCouncil.Net.PacketFifo
import GuardianCouncil.Ruby.CacheMemory
import GuardianCouncil.Ruby.PseudoLru
