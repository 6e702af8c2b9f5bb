import CThread.Heap.Runs
import CThread.Timers.Stop
import CThread.Timers.Capacity
import CThread.Timers.Refinement
import CThread.Timers.Lateness
import CThread.Timers.Firing
import CThread.Timers.ThrdSleep
import CThread.Threads.StartResult
import CThread.Threads.Joiners
import CThread.Threads.Deadlock
import CThread.Threads.Frames
import CThread.Wake.Joins
import CThread.Poll.Interest
import CThread.Poll.Dispatch
import CThread.Poll.Rearm
import CThread.Poll.Destroy
import CThread.Poll.Waits
import CThread.Hash.Runs
import CThread.Poll.TableRuns
import CThread.Sleep.Runs
import CThread.Sleep.MainLoop
import CThread.Switch.Entry
import CThread.Switch.Refinement
import CThread.Once.Creation
import CThread.Atomics.Refinement
