import ApacheNimble.QueueExclusion
import ApacheNimble.EventQueueFamily
import ApacheNimble.EventFlags
import ApacheNimble.CalloutPending
import ApacheNimble.CalloutDeadline
import ApacheNimble.Delivery
import ApacheNimble.HostBufferSize
import ApacheNimble.CalloutRemaining
import ApacheNimble.CommandResult
import ApacheNimble.AclInbound
import ApacheNimble.Outbound
import ApacheNimble.ReadRouting
import ApacheNimble.InitialPrimask
import ApacheNimble.CounterPreemption
import ApacheNimble.CalloutFiring
import ApacheNimble.Buffers
import ApacheNimble.Cancellation
import ApacheNimble.TimeConversion
import ApacheNimble.Interop
import ApacheNimble.EventLoop
import ApacheNimble.EventBindings
import ApacheNimble.TimerRuns
import ApacheNimble.PanicFreedom
import ApacheNimble.Quiescence
import ApacheNimble.SlotScan
import ApacheNimble.EventqInit
import ApacheNimble.CyclicPass
import ApacheNimble.RemoveMiscounted
import ApacheNimble.ByteStream
import ApacheNimble.Chains
import ApacheNimble.OneShot
import ApacheNimble.Boot
import ApacheNimble.Isr
import ApacheNimble.CalloutPunctual
import ApacheNimble.Link
import ApacheNimble.TransportLink
import ApacheNimble.Outcome
import ApacheNimble.LoopProgress
import ApacheNimble.PreemptedOrder
