import HypercertsRelay.Jetstream.Compaction.Convergence
import HypercertsRelay.Jetstream.Manifest.Complete
import HypercertsRelay.Jetstream.Subscribe.Delivery
import HypercertsRelay.Relay.DiskPersist.Playback
import HypercertsRelay.Relay.Slurper.Cursor
import HypercertsRelay.Relay.EventManager.Crossover
import HypercertsRelay.Relay.RateAdmission
import HypercertsRelay.Handoff.Refusal
import HypercertsRelay.Relay.Takedown
import HypercertsRelay.Jetstream.Live.Cursor
import HypercertsRelay.Jetstream.Live.Restart
import HypercertsRelay.Jetstream.Backfill.Ahead
import HypercertsRelay.Jetstream.Client.Replay
import HypercertsRelay.Jetstream.Ingest.Attributed
import HypercertsRelay.Jetstream.Jobs.Acquired
import HypercertsRelay.Jetstream.Ingest.LogWindow
import HypercertsRelay.Jetstream.Coverage
import HypercertsRelay.Jetstream.Subscribe.Gaps
import HypercertsRelay.Jetstream.Attribution.Immutable
import HypercertsRelay.Jetstream.InterruptedSeal
import HypercertsRelay.Jetstream.Ingest.Retry
import HypercertsRelay.Atproto.Mst.RoundTrip
import HypercertsRelay.Jetstream.Sealed.Patch
import HypercertsRelay.Jetstream.Sealed.Frame
import HypercertsRelay.Jetstream.Manifest.TimeCursor
import HypercertsRelay.Jetstream.TombstoneSet
import HypercertsRelay.Atproto.Mst.Accepted
import HypercertsRelay.Jetstream.Subscribe.Announce
import HypercertsRelay.Jetstream.Sealed.Canonical
