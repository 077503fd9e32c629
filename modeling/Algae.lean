import Algae.Mm.PhysRuns
import Algae.Ob.Holders
import Algae.Mm.PhysBoot
import Algae.Tools.OmarBounds
import Algae.Platform.Mp
import Algae.Platform.AddressSpaces
import Algae.Platform.Process
import Algae.Tools.OmarCreate
import Algae.Platform.Interrupts
import Algae.Platform.ApStart
import Algae.Platform.MpEntry
import Algae.Ex.StaleBlocks
import Algae.Ke.LoadedImage
import Algae.Mm.PhysCount
import Algae.Mm.PageRelease
import Algae.Platform.Stacks
import Algae.Ke.LoaderBounds
import Algae.Platform.TableWrites
import Algae.Mm.MapAtomic
import Algae.Mm.RegionCover
import Algae.Ob.Lookup
import Algae.Ob.Handles
import Algae.Ke.RunQueue
import Algae.Ke.ParbFair
import Algae.Ex.BoxTrace
import Algae.Acpi.Madt
import Algae.Acpi.MadtBounds
import Algae.Acpi.RootTables
import Algae.Rtl.PrintfText
import Algae.Rtl.PrintfWidths
import Algae.Rtl.QueueRuns
import Algae.Rtl.ToInt32
import Algae.Platform.Hpet
import Algae.Platform.LapicTimer
import Algae.Drv.BootVid
import Algae.Platform.BugCheck
import Algae.Platform.TrapStubs
import Algae.Ex.BoxAlloc
import Algae.Ex.BoxOwns
import Algae.Mm.TlsfCheck
import Algae.Mm.TlsfOversize
import Algae.Ex.PoolTlsf
import Algae.Mm.PhysCores
import Algae.Ke.SchedCores
import Algae.Tools.OmarRestore
import Algae.Ke.ArchivedImage
