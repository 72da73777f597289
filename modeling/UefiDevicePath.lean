import UefiDevicePath.Runtime
import UefiDevicePath.Node
import UefiDevicePath.Path
import UefiDevicePath.NodeIterator
import UefiDevicePath.InstanceIterator
import UefiDevicePath.Size
import UefiDevicePath.Build
