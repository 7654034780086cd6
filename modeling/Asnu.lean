import Asnu.Pmm.Bounds
import Asnu.Pmm.Exact
import Asnu.Pmm.FirstFit
import Asnu.Pmm.Zeroed
import Asnu.Sched.RoundRobin
import Asnu.Sched.Supply
import Asnu.Sched.Pid
import Asnu.Sched.Coherence
import Asnu.Sched.FirstLoad
import Asnu.Sched.Blocked
import Asnu.Drivers.Delay
import Asnu.Drivers.LineEditor
import Asnu.Drivers.Modifiers
import Asnu.Drivers.XhciEvents
import Asnu.CString.Move
import Asnu.CString.Tokens
import Asnu.CString.Compare
import Asnu.KiSimple.Info
import Asnu.Pci.Endless
import Asnu.Pci.Region
import Asnu.Vmm.Tlb
import Asnu.Vmm.Switch
import Asnu.Vmm.Exhaustion
import Asnu.Idt.Stubs
import Asnu.Kmain.Largest
import Asnu.Serial.RoundTrip
import Asnu.Serial.Format
import Asnu.Printk.ReadBack
import Asnu.Printk.Cut
import Asnu.Idt.Eoi
import Asnu.Sched.Waiting
import Asnu.CString.Build
import Asnu.Serial.Transcript
import Asnu.Kmain.Budget
