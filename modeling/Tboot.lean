import Tboot.Streaming.Lemmas.Order
import Tboot.Streaming.Lemmas.Loss
import Tboot.Streaming.Lemmas.DeadReader
import Tboot.Streaming.Lemmas.Plan
import Tboot.Disk.Lemmas.Layout
import Tboot.Disk.Lemmas.RoundTrip
import Tboot.Disk.Lemmas.DryRun
import Tboot.Disk.Lemmas.ParseLen
import Tboot.Fastboot.Lemmas.Sticky
import Tboot.Fastboot.Lemmas.Reply
import Tboot.Fastboot.Lemmas.Slices
import Tboot.Fastboot.Lemmas.Overrun
import Tboot.Fastboot.Lemmas.Pull
import Tboot.Fastboot.Lemmas.Ack
import Tboot.Fastboot.Lemmas.Dispatch
import Tboot.Aboot.Lemmas.Battery
import Tboot.Aboot.Lemmas.DataPhase
import Tboot.Aboot.Lemmas.Dispatch
import Tboot.Aboot.Lemmas.Erase
import Tboot.Aboot.Lemmas.Oem
import Tboot.Aboot.Lemmas.Push
import Tboot.Aboot.Lemmas.Release
import Tboot.Aboot.Lemmas.Scratch
import Tboot.Ui.Lemmas.Menu
import Tboot.Ui.Lemmas.Log
import Tboot.Helpers.Lemmas.Join
import Tboot.Helpers.Lemmas.Write
import Tboot.Fstab.Lemmas
import Tboot.Config.Lemmas
import Tboot.Config.Exact
import Tboot.Config.Overread
import Tboot.Boot.Lemmas.Layout
import Tboot.Boot.Lemmas.Cmdline
import Tboot.Threads.Lemmas.Autoboot
import Tboot.Threads.Lemmas.Exclusion
import Tboot.Threads.Lemmas.Idle
import Tboot.Hashmap.Lemmas.Calls
import Tboot.Aboot.Register
import Tboot.Config.Stored
import Tboot.ConfigUtils.Grammar
import Tboot.Disk.Lemmas.Described
import Tboot.Sparse.Lemmas.RoundTrip
