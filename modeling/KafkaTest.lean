import KafkaTest.Acknowledged
import KafkaTest.Backpressure
import KafkaTest.KrafkaBlocks
import KafkaTest.KrafkaGrammar
import KafkaTest.Truncation
import KafkaTest.Loader
import KafkaTest.Pipeline
import KafkaTest.Isolation
import KafkaTest.Workers
import KafkaTest.Continuous
import KafkaTest.BatchedCounter
import KafkaTest.SingleCounter
import KafkaTest.QueueFull
import KafkaTest.SignedCodec
import KafkaTest.ExactSum
import KafkaTest.LockedCounters
import KafkaTest.Benchmark
import KafkaTest.Delivery
