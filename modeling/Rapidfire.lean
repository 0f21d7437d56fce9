import Rapidfire.Positions
import Rapidfire.Updates
import Rapidfire.Runs
import Rapidfire.Balance
import Rapidfire.QueueMemory
import Rapidfire.QueuePush
import Rapidfire.QueuePop
import Rapidfire.QueueSingle
import Rapidfire.QueueMachine
import Rapidfire.QueueCoherence
import Rapidfire.QueueLocal
import Rapidfire.QueueRely
import Rapidfire.QueueProduce
import Rapidfire.QueueConsume
import Rapidfire.QueueSteps
import Rapidfire.QueuePushSteps
import Rapidfire.QueuePopSteps
import Rapidfire.QueueSingleSteps
import Rapidfire.QueueInvariant
import Rapidfire.QueueHistory
import Rapidfire.QueueDelivery
import Rapidfire.QueueCapacity
import Rapidfire.QueueExclusive
import Rapidfire.QueueBlocks
import Rapidfire.QueueProgress
import Rapidfire.QueueStores
import Rapidfire.QueueWalk
import Rapidfire.QueuePairing
import Rapidfire.ChannelDrained
import Rapidfire.ChannelEmpty
import Rapidfire.ChannelUnwind
import Rapidfire.ChannelWaiters
import Rapidfire.ChannelMutex
import Rapidfire.ChannelTurns
import Rapidfire.ChannelWakes
import Rapidfire.ChannelSolo
import Rapidfire.ChannelClose
import Rapidfire.ChannelSleeper
import Rapidfire.QueueRest
import Rapidfire.QueueHighWater
import Rapidfire.QueueAlone
import Rapidfire.QueueFifo
import Rapidfire.QueueFootprint
import Rapidfire.QueueRetries
import Rapidfire.Objects
import Rapidfire.QueueLinear
import Rapidfire.QueueSerial
import Rapidfire.ChannelSerial
import Rapidfire.ChannelBalance
import Rapidfire.ChannelRoom
import Rapidfire.ChannelParking
import Rapidfire.ChannelMailbox
import Rapidfire.ChannelLinear
import Rapidfire.ChannelMessages
