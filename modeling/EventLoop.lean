import EventLoop.Main
import EventLoop.Proofs.Announcement
import EventLoop.Proofs.ChainFold
import EventLoop.Proofs.LoopScope
import EventLoop.Proofs.Paint
import EventLoop.Proofs.Pause
import EventLoop.Proofs.Reentry
import EventLoop.Proofs.Resumption
import EventLoop.Proofs.Registry
import EventLoop.Proofs.ReturnAwait
import EventLoop.Proofs.Rounds
import EventLoop.Proofs.ScopeTree
import EventLoop.Proofs.StepReplay
import EventLoop.Proofs.Support
import EventLoop.Proofs.Synchrony
import EventLoop.Proofs.Truncation
import EventLoop.Replay.Timeline
