import SPHomework.Lib.Run
import SPHomework.Lib.Program
import SPHomework.Lib.CString
import SPHomework.Booking.ReadLocks
import SPHomework.Booking.Serial
import SPHomework.Booking.Commands
import SPHomework.MovieSort.ProcessServer
import SPHomework.MovieSort.Batch
import SPHomework.MovieSort.Titles
import SPHomework.MovieSort.Processes
import SPHomework.MovieSort.Dataset
import SPHomework.MovieSort.ProcessService
import SPHomework.Threads.Scheduler
import SPHomework.Threads.Queues
import SPHomework.Threads.Conservation
import SPHomework.Tournament.Integrity
import SPHomework.Tournament.LogSizes
import SPHomework.Tournament.MachineLogs
import SPHomework.Tournament.Overflow
import SPHomework.Tournament.Links
import SPHomework.Tournament.Statuses
import SPHomework.Tournament.Battle
import SPHomework.Threads.Feeding
import SPHomework.Threads.Overwritten
import SPHomework.Threads.Printouts
import SPHomework.Threads.Signals
import SPHomework.Threads.Turns
import SPHomework.Threads.Sums
import SPHomework.Threads.Trajectory
