import InotifyDtree.Event
import InotifyDtree.Cache
import InotifyDtree.Fs
import InotifyDtree.Kernel
import InotifyDtree.Roots
import InotifyDtree.Engine
import InotifyDtree.CacheMap
import InotifyDtree.Handler
import InotifyDtree.Outcome
import InotifyDtree.ReadLoop
import InotifyDtree.Chunking
import InotifyDtree.System
import InotifyDtree.BufferInvariant
import InotifyDtree.RootList
import InotifyDtree.CacheInvariant
import InotifyDtree.Stopping
import InotifyDtree.Snapshot
import InotifyDtree.Positions
import InotifyDtree.Mirror
import InotifyDtree.Calls
import InotifyDtree.Boundary
import InotifyDtree.Crossing
import InotifyDtree.Run
import InotifyDtree.Lifecycle
