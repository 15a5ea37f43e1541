import ShirleysOS.Boot.DeviceTreeMap
import ShirleysOS.Boot.DeviceTreeReads
import ShirleysOS.Boot.QemuArm64
import ShirleysOS.Exfat.Upcase
import ShirleysOS.Ext4.Ends
import ShirleysOS.Fs.ByteViews
import ShirleysOS.Fs.Slots
import ShirleysOS.Input.InputQueue
import ShirleysOS.Memory.HeapExact
import ShirleysOS.Memory.MapReduction
import ShirleysOS.Paging.Accounting
import ShirleysOS.Partition.Publish
import ShirleysOS.Process.Descriptors
import ShirleysOS.Process.TaskIdentifiers
import ShirleysOS.Shrfs.Children
import ShirleysOS.User.Conservation
import ShirleysOS.User.ElfReads
import ShirleysOS.User.Resolve
import ShirleysOS.Vfs.Listing
import ShirleysOS.Vfs.Normalize
import ShirleysOS.Virtio.Transfers
