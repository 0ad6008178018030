import IomemoryVsl.Lib.Run
import IomemoryVsl.Lib.Designated
import IomemoryVsl.Lib.Extent
import IomemoryVsl.Lib.ByteMemory
import IomemoryVsl.Lib.LinkedRing
import IomemoryVsl.Lib.Slots
import IomemoryVsl.Lib.Owned
import IomemoryVsl.Lib.Monitor
import IomemoryVsl.Lib.SharedCell
import IomemoryVsl.Lib.Chain
import IomemoryVsl.Lib.BackChain
import IomemoryVsl.Lib.Forest
import IomemoryVsl.Lib.CString
import IomemoryVsl.Lib.WrapClock
import IomemoryVsl.Lib.BitCount
import IomemoryVsl.Lib.BitField
import IomemoryVsl.Lib.BlockSwap
import IomemoryVsl.Lib.ByteOrder
import IomemoryVsl.Lib.FloorConvert
import IomemoryVsl.Lib.Numeral
import IomemoryVsl.Kscatter.Slice
import IomemoryVsl.Kscatter.Tiling
import IomemoryVsl.Kscatter.UserBuffer
import IomemoryVsl.Kscatter.Lifecycle
import IomemoryVsl.Kscatter.WholeMap
import IomemoryVsl.Kscatter.Recording
import IomemoryVsl.Kscatter.Dump
import IomemoryVsl.Port.Errno
import IomemoryVsl.Port.FusionList
import IomemoryVsl.Port.Kcache
import IomemoryVsl.Port.KcacheInvariant
import IomemoryVsl.Port.FusionListBytes
import IomemoryVsl.Port.KcacheLayout
import IomemoryVsl.Kblock.Bio
import IomemoryVsl.Kblock.Dequeue
import IomemoryVsl.Kblock.BounceSize
import IomemoryVsl.Kblock.BounceCopy
import IomemoryVsl.Kblock.Destroy
import IomemoryVsl.Kblock.PciDisks
import IomemoryVsl.Cdev.Poll
import IomemoryVsl.Port.State
import IomemoryVsl.Port.StateArcs
import IomemoryVsl.Port.AtomicList
import IomemoryVsl.Port.AtomicListInvariant
import IomemoryVsl.Kmem.UserPages
import IomemoryVsl.Port.Hlist
import IomemoryVsl.Main.ModEvent
import IomemoryVsl.Kinfo.TypeProc
import IomemoryVsl.Kinfo.ValueExchange
import IomemoryVsl.Kinfo.TextProc
import IomemoryVsl.Kinfo.Tree
import IomemoryVsl.Pci.Softc
import IomemoryVsl.Pci.Mapping
import IomemoryVsl.Main.Newbus
import IomemoryVsl.Kmem.DmaCoherent
import IomemoryVsl.Kmem.CoherentUsers
import IomemoryVsl.Port.FusionListWalk
import IomemoryVsl.Kfio.PutUser
import IomemoryVsl.Kfio.PciSlot
import IomemoryVsl.Kfio.Strings
import IomemoryVsl.Kfio.Kthread
import IomemoryVsl.Kfio.Names
import IomemoryVsl.Port.Bits
import IomemoryVsl.Port.Atomic
import IomemoryVsl.Port.AtomicBits
import IomemoryVsl.Port.Byteswap
import IomemoryVsl.Port.Csr
import IomemoryVsl.Port.Ioctl
import IomemoryVsl.Port.Bitops
import IomemoryVsl.Port.Ktime
import IomemoryVsl.Port.Ticks
import IomemoryVsl.Port.Lbolt
