import TouchHLE.Theorems.Mem.PageSet
import TouchHLE.Theorems.Mem.HeapCoalesce
import TouchHLE.Theorems.Mem.Zeroed
import TouchHLE.Theorems.Mem.DestroyHeap
import TouchHLE.Theorems.Dyld.Resolution
import TouchHLE.Theorems.Dyld.Restoring
import TouchHLE.Theorems.Environment.Wakeups
import TouchHLE.Theorems.Environment.Suspension
import TouchHLE.Theorems.Environment.Semaphores
import TouchHLE.Theorems.Environment.FileLocks
import TouchHLE.Theorems.Environment.LoadOrder
import TouchHLE.Environment.MainLoop
import TouchHLE.Libc.Pthread.Once
import TouchHLE.Audio.Ima4
import TouchHLE.Libc.Bsearch
import TouchHLE.Libc.Fnmatch
import TouchHLE.Libc.UnwindSjlj
import TouchHLE.Libc.Qsort
import TouchHLE.Theorems.Objc.Synchronization
import TouchHLE.Theorems.Objc.IvarLayout
import TouchHLE.Theorems.Foundation.NSArray
import TouchHLE.Theorems.Foundation.NSString
import TouchHLE.Foundation.Encoding
import TouchHLE.Foundation.NSScanner
import TouchHLE.Foundation.FastEnumeration
import TouchHLE.Foundation.Ownership
import TouchHLE.Theorems.Foundation.PropertyList
import TouchHLE.Foundation.Derived
import TouchHLE.Theorems.CoreFoundation.DictionaryLife
import TouchHLE.Theorems.Libc.Semaphore
import TouchHLE.Theorems.Fs.Enumeration
import TouchHLE.Theorems.Abi
import TouchHLE.Theorems.Gdb
import TouchHLE.Theorems.Libc.Widths
import TouchHLE.Theorems.Libc.Time
import TouchHLE.Theorems.Libc.Open
import TouchHLE.Theorems.Libc.Positions
