import StepTimer.Audio.Session
import StepTimer.Device.CommandPlayer
import StepTimer.Device.DesktopNotifier
import StepTimer.Engine.Solo
import StepTimer.Main
import StepTimer.Proofs.Run.Entries
import StepTimer.Proofs.Run.Stale
import StepTimer.Proofs.Run.Stop
import StepTimer.Proofs.Tree.History
import StepTimer.Proofs.Solo.Silence
import StepTimer.Proofs.Solo.Account
import StepTimer.Proofs.Solo.Reckoning
import StepTimer.Proofs.Solo.Return
import StepTimer.Proofs.Engine.Depth
import StepTimer.Proofs.Engine.Rounding
import StepTimer.Proofs.Solo.Timeout
import StepTimer.Proofs.Solo.Livelock
import StepTimer.Proofs.Solo.Shift
import StepTimer.Proofs.Solo.Dismissal
import StepTimer.Proofs.Solo.ClockWait
import StepTimer.Proofs.Solo.Cadence
import StepTimer.Proofs.Solo.Counting
import StepTimer.Proofs.Audio.Slot
import StepTimer.Proofs.Run.Isolation
import StepTimer.Proofs.Run.Duel
import StepTimer.Proofs.Codec.RoundTrip
import StepTimer.Proofs.Store.Saves
import StepTimer.Proofs.Store.Reload
import StepTimer.Proofs.App.Orphans
import StepTimer.Proofs.Run.Paused
import StepTimer.Proofs.Run.Late
import StepTimer.Proofs.Run.Rush
import StepTimer.Proofs.Run.Replay
import StepTimer.Proofs.Tree.Moves
import StepTimer.Proofs.Tree.Inverse
import StepTimer.Proofs.Tree.Replacement
import StepTimer.Proofs.Tree.Loading
import StepTimer.Proofs.Tree.Copies
import StepTimer.Proofs.App.Placing
import StepTimer.Proofs.Time.Segments
import StepTimer.Proofs.Time.Remaining
import StepTimer.Proofs.Log.Transitions
