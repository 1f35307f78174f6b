import Lockless.Interleave
import Lockless.Word
import Lockless.Custody
import Lockless.Serial
import Lockless.Progress
import Lockless.Mutex
import Lockless.Linearize
import Lockless.Ring
import Lockless.RingTickets
import Lockless.RingFifo
import Lockless.RingRefusals
import Lockless.RingProgress
import Lockless.RingCalls
import Lockless.RingBatch
import Lockless.RingSizes
import Lockless.RingQuiet
import Lockless.RingBatchRuns
import Lockless.RingConsumer
import Lockless.RingLinear
import Lockless.Spsc
import Lockless.SpscFifo
import Lockless.SpscEmpty
import Lockless.SpscLinear
import Lockless.Stack
import Lockless.StackNodes
import Lockless.StackLifo
import Lockless.StackConstructor
import Lockless.StackCalls
import Lockless.StackQuiet
import Lockless.StackLinear
import Lockless.Pool
import Lockless.PoolObjects
import Lockless.PoolCalls
import Lockless.PoolQuiet
import Lockless.Arena
import Lockless.ArenaCalls
import Lockless.ArenaLinear
import Lockless.MessageQueue
import Lockless.MessageDelivery
import Lockless.MessageCalls
import Lockless.MessageSizes
import Lockless.MessageQuiet
import Lockless.MessageClients
import Lockless.OrderBook
import Lockless.OrderBookPrices
import Lockless.OrderBookCrossing
import Lockless.OrderBookTotals
import Lockless.OrderBookSpread
import Lockless.OrderBookDecisions
import Lockless.OrderBookDrain
import Lockless.OrderBookQueue
import Lockless.OrderBookSequencer
import Lockless.HashMap
import Lockless.HashMapKeys
import Lockless.HashMapReads
import Lockless.HashMapInserts
import Lockless.HashMapCalls
import Lockless.HashMapThrows
import Lockless.HashMapQuiet
import Lockless.HashMapLinear
import Lockless.Epoch
import Lockless.EpochBound
import Lockless.EpochObjects
import Lockless.EpochSafety
import Lockless.EpochIds
import Lockless.EpochCalls
import Lockless.EpochSchedule
import Lockless.EpochQuiet
import Lockless.Validator
import Lockless.ValidatorRecords
import Lockless.ValidatorVerdict
import Lockless.ValidatorScoped
import Lockless.ValidatorRing
import Lockless.LockFreedom
import Lockless.WaitFreedom
import Lockless.RingClients
