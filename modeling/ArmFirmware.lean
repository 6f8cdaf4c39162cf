import ArmFirmware.Zephyr.RingBuffer.Fifo
import ArmFirmware.Zephyr.RingBuffer.Items
import ArmFirmware.Zephyr.Hashmap.OpenAddressing
import ArmFirmware.Zephyr.Hashmap.SeparateChainingFaults
import ArmFirmware.Zephyr.Timeout.Runs
import ArmFirmware.Zephyr.Queue
import ArmFirmware.Zephyr.MessageQueue
import ArmFirmware.Zephyr.Pipe.Runs
import ArmFirmware.Zephyr.Pipe.Wakeups
import ArmFirmware.Zephyr.Work.Cancel
import ArmFirmware.Zephyr.Work.Delays
import ArmFirmware.Zephyr.Mutex.Nesting
import ArmFirmware.Zephyr.Futex
import ArmFirmware.Zephyr.ThreadTimeout
import ArmFirmware.Zephyr.Condvar
import ArmFirmware.Zephyr.WaitQueues
import ArmFirmware.Zephyr.MemSlab
import ArmFirmware.Zephyr.Event
import ArmFirmware.Zephyr.Mailbox.Runs
import ArmFirmware.Zephyr.SpscPbuf.Calls
import ArmFirmware.Zephyr.SpscPbuf.Accesses
import ArmFirmware.Zephyr.MpscPbuf.Blocking
import ArmFirmware.Zephyr.MemBlocks
import ArmFirmware.Zephyr.Winstream
import ArmFirmware.Zephyr.Eventfd.Signals
import ArmFirmware.Zephyr.Nvs.Runs
import ArmFirmware.Zephyr.Fcb.Damaged
import ArmFirmware.Zephyr.Fdtable
import ArmFirmware.Zephyr.Libc.Time
import ArmFirmware.Zephyr.FdOffsets
import ArmFirmware.UBoot.Gpt
import ArmFirmware.Zephyr.OnOff.Runs
import ArmFirmware.Zephyr.RedBlackTree.Runs
import ArmFirmware.Zephyr.MultiHeap
import ArmFirmware.Rsk.Rs485
import ArmFirmware.Rsk.TcpTransfer
import ArmFirmware.Rsk.Base64
