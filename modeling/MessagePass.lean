import MessagePass.LabelledRuns
import MessagePass.OrderedMaps
import MessagePass.RelatedLists
import MessagePass.LittleEndian
import MessagePass.Base128
import MessagePass.RequestMessages
import MessagePass.RequestCodec
import MessagePass.DataMessages
import MessagePass.SourceTasks
import MessagePass.TaskInvariants
import MessagePass.RequestBookkeeping
import MessagePass.TaskSchedules
import MessagePass.HeldUpRequests
import MessagePass.SourceOwnership
import MessagePass.DeliveryNetwork
import MessagePass.DeliveryGuarantees
import MessagePass.ReceiveQueues
import MessagePass.ReceiveLoop
import MessagePass.WireRoundTrip
import MessagePass.SinkQueues
import MessagePass.FetchedMessages
import MessagePass.FetchedPayloads
import MessagePass.ThreadRoles
import MessagePass.StoppedGets
import MessagePass.FlaggedGroups
import MessagePass.SocketFraming
import MessagePass.PeerMessages
import MessagePass.HarmfulMessages
import MessagePass.ReceivedSizes
import MessagePass.PolledQueues
import MessagePass.NullQueues
import MessagePass.PayloadBytes
import MessagePass.RequestIntake
import MessagePass.FixedSizeReceive
import MessagePass.BackPressure
import MessagePass.HeldUpRecoveries
import MessagePass.CircularArrays
import MessagePass.PowersOfTwo
import MessagePass.QueueBlocks
import MessagePass.LinkedCycles
import MessagePass.BlockRings
import MessagePass.RingInvariants
import MessagePass.RingSteps
import MessagePass.ProducerSteps
import MessagePass.ConsumerSteps
import MessagePass.RingGuarantees
import MessagePass.LightSemaphores
import MessagePass.BlockingQueues
import MessagePass.AtomicObjects
import MessagePass.QueueLinearization
import MessagePass.QueueProgress
import MessagePass.QueueDrains
import MessagePass.QueuedTopics
import MessagePass.TopicRefinement
