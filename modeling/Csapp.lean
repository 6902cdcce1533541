import Csapp.Cachelab.CsimRun
import Csapp.Cachelab.TransExact
import Csapp.Lib.Ring
import Csapp.Lib.Reach
import Csapp.Lib.Strtol
import Csapp.Malloc.Extent
import Csapp.Malloc.Undo
import Csapp.Proxy.Socket
import Csapp.ProxyCache.Duplicate
import Csapp.ProxyCache.Evictions
import Csapp.ProxyCache.Termination
import Csapp.Sbuf.Semaphores
import Csapp.Shell.Bgfg
import Csapp.Shell.Stop
import Csapp.Shell.JobIds
import Csapp.Y86.NcopyRun
import Csapp.Y86.PipeAbsolute
import Csapp.Y86.PipeRun
import Csapp.Proxy.ReqlineShape
import Csapp.Proxy.Request
import Csapp.Proxy.Response
import Csapp.Malloc.Order
import Csapp.Malloc.Grow
import Csapp.Proxy.Connection
import Csapp.Shell.Parse
import Csapp.Shell.Eval
import Csapp.DataLab.Float
import Csapp.Y86.PipeForward
import Csapp.Y86.NcopyInside
import Csapp.Y86.Rules
import Csapp.Y86.ListSum
import Csapp.Cachelab.Address
import Csapp.Lib.TwosComplement
import Csapp.Y86.Cond
import Csapp.Y86.Fault
import Csapp.Cachelab.TransOdds
import Csapp.DataLab.Bits
import Csapp.Cachelab.Inclusion
import Csapp.Cachelab.TransTemps
import Csapp.Y86.CopyBlock
import Csapp.Hcl2c.Correct
import Csapp.Hcl2c.PipeFull
import Csapp.Hcl2c.SeqFull
import Csapp.Hcl2c.Sets
import Csapp.Yas.Assembles
import Csapp.Malloc.Driver
import Csapp.Malloc.DriverRanges
import Csapp.Malloc.Check
import Csapp.Y86.PipeCycles
import Csapp.Lib.Linearizable
import Csapp.ProxyCache.Linearizable
import Csapp.ProxyCache.Locking
import Csapp.ProxyCache.Release
