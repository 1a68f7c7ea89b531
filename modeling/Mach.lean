import Mach.Ipc.SplayMap
import Mach.Ipc.Urefs
import Mach.Ipc.Conservation
import Mach.Ipc.KmsgBody
import Mach.Vm.MapRun
import Mach.Vm.MapVerify
import Mach.Vm.ObjectCollapse
import Mach.Vm.Writeback
import Mach.Vm.ManagerCalls
import Mach.Kern.Swappable
import Mach.Kern.StackSafety
import Mach.Kern.RunQueue
import Mach.Kern.LockWakeup
import Mach.Kern.Suspend
import Mach.Kern.Timeout
import Mach.Intel.PmapRun
import Mach.Intel.PmapExpand
import Mach.Intel.ShootdownSound
import Mach.Device.NetFilter
import Mach.Device.WriteMap
import Mach.Device.Ttyflush
import Mach.DefaultPager.PagerPages
import Mach.DefaultPager.Extend
import Mach.Threads.ForkChild
import Mach.Threads.MachMsg
