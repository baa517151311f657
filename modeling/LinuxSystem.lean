import LinuxSystem.Base.Unicode
import LinuxSystem.Utf.RoundTrip
import LinuxSystem.Base.Probing
import LinuxSystem.Base.Transition
import LinuxSystem.Map.Model
import LinuxSystem.Map.Lookup
import LinuxSystem.Map.Sound
import LinuxSystem.Map.ReadYourWrite
import LinuxSystem.Map.OneCopy
import LinuxSystem.Map.Size
import LinuxSystem.Base.Machine
import LinuxSystem.Map.Cleared
import LinuxSystem.Map.Ownership
import LinuxSystem.Map.Invalidate
import LinuxSystem.ExtraCredit.Model
import LinuxSystem.ExtraCredit.Agree
import LinuxSystem.ExtraCredit.TimeToLive
import LinuxSystem.Map.Delete
import LinuxSystem.Server.Response
import LinuxSystem.Server.Request
import LinuxSystem.Morse.Model
import LinuxSystem.Morse.Ring
import LinuxSystem.Morse.Text
import LinuxSystem.Morse.Encode
import LinuxSystem.Morse.Decode
import LinuxSystem.Morse.RoundTrip
import LinuxSystem.Base.Threads
import LinuxSystem.Map.Locks
import LinuxSystem.Base.Linked
import LinuxSystem.WorkQueue.Model
import LinuxSystem.WorkQueue.Fifo
import LinuxSystem.WorkQueue.Shutdown
import LinuxSystem.Base.Tiling
import LinuxSystem.Allocator.Memory
import LinuxSystem.Allocator.Model
import LinuxSystem.Allocator.Layout
import LinuxSystem.Allocator.FreeList
import LinuxSystem.Allocator.Window
import LinuxSystem.Allocator.Place
import LinuxSystem.Allocator.Free
import LinuxSystem.Allocator.Extend
import LinuxSystem.Allocator.FindFit
import LinuxSystem.Allocator.Malloc
import LinuxSystem.Allocator.Realloc
import LinuxSystem.Allocator.Run
import LinuxSystem.Shell.Directory
import LinuxSystem.Base.Keyed
import LinuxSystem.Polybius.Model
import LinuxSystem.Utf.ByteOrders
import LinuxSystem.Polybius.RoundTrip
import LinuxSystem.Allocator.Drawn
import LinuxSystem.Allocator.Search
import LinuxSystem.Allocator.Release
import LinuxSystem.Allocator.Shrink
import LinuxSystem.Allocator.DoubleFree
import LinuxSystem.Allocator.LostPage
import LinuxSystem.Utf.Swap
import LinuxSystem.Utf.Truncated
import LinuxSystem.Morse.Chunks
import LinuxSystem.Morse.Rejected
import LinuxSystem.Cipher.Arguments
import LinuxSystem.Cipher.Dimensions
import LinuxSystem.Cipher.Bounds
import LinuxSystem.Base.Split
import LinuxSystem.Shell.Parse
import LinuxSystem.Shell.Pipes
import LinuxSystem.Shell.Redirect
import LinuxSystem.Base.Sections
import LinuxSystem.Map.Statements
import LinuxSystem.Map.Interleaved
import LinuxSystem.Map.Simulation
import LinuxSystem.Base.Owned
import LinuxSystem.Server.Buffers
import LinuxSystem.Server.Rio
import LinuxSystem.Server.Wire
import LinuxSystem.Map.Dictionary
import LinuxSystem.Server.Session
import LinuxSystem.Server.Connections
import LinuxSystem.ExtraCredit.Recent
import LinuxSystem.Allocator.Contents
import LinuxSystem.Utf.Program
import LinuxSystem.Base.Descriptors
import LinuxSystem.Shell.Execute
import LinuxSystem.Shell.Session
import LinuxSystem.Cipher.Program
import LinuxSystem.ExtraCredit.OneOrder
import LinuxSystem.Server.OneWorker
import LinuxSystem.Server.Buffered
import LinuxSystem.Cipher.Fractionated
