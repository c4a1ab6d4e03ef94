import WfeMutex.Lock.Visibility
import WfeMutex.Lock.Debug
import WfeMutex.Lock.Capacity
import WfeMutex.Lock.Timed
import WfeMutex.Lock.Pairing
import WfeMutex.Lock.Linear
import WfeMutex.Wait.Table
import WfeMutex.Init.Calibration
import WfeMutex.Init.Conversion
import WfeMutex.Init.Frequency
import WfeMutex.Init.Measurement
import WfeMutex.Wait.Timers
import WfeMutex.Lock.Completion
import WfeMutex.Lock.Retry
import WfeMutex.Lock.Asleep
import WfeMutex.Init.RealTime
import WfeMutex.Lock.Overrun
import WfeMutex.Lock.Program
import WfeMutex.Lock.Exact
import WfeMutex.Lock.Progress
import WfeMutex.Init.Reported
import WfeMutex.Lock.Guarded
