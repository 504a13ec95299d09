import EvManager.Lib.Run
import EvManager.State
import EvManager.Task
import EvManager.IoOps
import EvManager.Core
import EvManager.Frame
import EvManager.Effect
import EvManager.Inversion
import EvManager.Counter
import EvManager.Life
import EvManager.Ring
import EvManager.Instances
import EvManager.Refusal
import EvManager.Control
import EvManager.Stack
import EvManager.Linked
import EvManager.Awaits
import EvManager.Records
import EvManager.Dispatch
import EvManager.Persist
import EvManager.Coherent
import EvManager.Sound
import EvManager.Loop
import EvManager.Lasting
import EvManager.Store
import EvManager.TaskMachine
import EvManager.TaskHistory
import EvManager.Awaiting
import EvManager.Tasks
import EvManager.Refines
import EvManager.TaskRun
import EvManager.TaskSlots
import EvManager.Answers
import EvManager.KillInternal
import EvManager.Drain
import EvManager.FailedKill
import EvManager.Flushing
import EvManager.FailedWait
import EvManager.KillStack
import EvManager.StartReturns
import EvManager.Polling
import EvManager.Responses
import EvManager.Lib.Avoids
import EvManager.Faults
import EvManager.RingCalls
import EvManager.Exceptions
import EvManager.Acts
import EvManager.Promises
import EvManager.TaskMoves
import EvManager.Slots
import EvManager.PollMembers
import EvManager.Polls
import EvManager.Lives
import EvManager.Deals
import EvManager.Lookups
import EvManager.Leaks
import EvManager.Entries
import EvManager.Sizes
import EvManager.Heard
import EvManager.Batches
import EvManager.Vectors
import EvManager.Posted
import EvManager.Rounds
import EvManager.Calls
import EvManager.Reports
import EvManager.Completions
import EvManager.IoErrors
import EvManager.Accounts
import EvManager.DirectCalls
import EvManager.CallOrder
import EvManager.IssueOrder
import EvManager.ExactlyOnce
import EvManager.BatchEnds
import EvManager.KillBound
import EvManager.RecordFaults
import EvManager.Lifetimes
import EvManager.WakeUps
import EvManager.Work
import EvManager.NaLife
import EvManager.StoreUse
