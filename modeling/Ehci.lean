import Ehci.Layout
import Ehci.State
import Ehci.Alloc
import Ehci.Periodic
import Ehci.PeriodicRun
import Ehci.Async
import Ehci.Qtd
import Ehci.Transfer
import Ehci.Reaper
import Ehci.Ownership
import Ehci.Run
import Ehci.Cursor
import Ehci.Enqueue
import Ehci.Submit
import Ehci.Links
import Ehci.Driver
import Ehci.Irq
import Ehci.Band
import Ehci.Retire
import Ehci.Destroy
import Ehci.AsyncWalk
