import ExchangeLabs.AlarmClock.Timer
import ExchangeLabs.BatchScheduler.Priority
import ExchangeLabs.BatchScheduler.Wakeups
import ExchangeLabs.Chord.Deletes
import ExchangeLabs.Chord.Fingers
import ExchangeLabs.Chord.Identifiers
import ExchangeLabs.Chord.Intervals
import ExchangeLabs.Chord.Joins
import ExchangeLabs.Chord.Panics
import ExchangeLabs.Chord.Recovery
import ExchangeLabs.EchoServer.Loop
import ExchangeLabs.HttpServer.Files
import ExchangeLabs.HttpServer.Shutdown
import ExchangeLabs.LabRpc.Calls
import ExchangeLabs.Login.Attempt
import ExchangeLabs.MapReduce.Failure
import ExchangeLabs.MapReduce.Handover
import ExchangeLabs.MapReduce.WordCount
import ExchangeLabs.Porcupine.CheckOperations
import ExchangeLabs.Privacy.Exceptions
import ExchangeLabs.Privacy.Reconstruction
import ExchangeLabs.Raft.ApplyStream
import ExchangeLabs.Raft.Compaction
import ExchangeLabs.Raft.Indices
import ExchangeLabs.Raft.Repair
import ExchangeLabs.Realtime.IntToStr
import ExchangeLabs.Shell.Jobs
