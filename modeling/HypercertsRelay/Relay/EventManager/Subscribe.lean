import HypercertsRelay.Library.Ascending
import HypercertsRelay.Library.System
import HypercertsRelay.Relay.Stream

-- A subscriber that starts from a cursor. What other subscribers do does not reach it.
namespace Relay.EventManager

open Relay.Stream (XRPCStreamEvent)
open Ascending (after)

def bufferSize := 16 <<< 10
def crossoverBufferSize := 512

abbrev sequenceForEvent (e : XRPCStreamEvent) : ℤ :=
  e.sequence

-- A channel that was closed gives no event.
def sequenceForFirst : Option XRPCStreamEvent → ℤ
  | none => -1
  | some e => sequenceForEvent e

-- `yielded` counts what a playback has called back with, `bound` how many it has to, at least.
inductive Phase
  | playback (lastSeq : ℤ) (yielded bound : ℕ)
  | caughtUp (lastSeq : ℤ)
  | waiting (lastSeq : ℤ)
  | received (lastSeq : ℤ) (first : Option XRPCStreamEvent)
  | again (lastSeq : ℤ) (first : Option XRPCStreamEvent) (yielded bound : ℕ)
  | copying (hand : Option XRPCStreamEvent)
  | ended
  deriving DecidableEq, Repr

-- How far the cleanup of the subscriber is. It is done once.
inductive Cleanup
  | none
  | done
  | removed
  | closed
  deriving DecidableEq, Repr

-- `pending` is persisted and not broadcast yet. Of `out`, what was sent on the returned channel,
-- `taken` were received, and `skipped` tells that a broadcast passed over the closing subscriber.
structure State where
  persisted : List XRPCStreamEvent
  pending : Option XRPCStreamEvent
  phase : Phase
  inSubs : Bool
  accepts : Bool
  outgoing : List XRPCStreamEvent
  dropping : Bool
  cleanup : Cleanup
  out : List XRPCStreamEvent
  taken : ℕ
  skipped : Bool

section Step

variable (since : ℤ)

abbrev State.played (s : State) (lastSeq : ℤ) : List XRPCStreamEvent :=
  after sequenceForEvent s.persisted lastSeq

def State.room (s : State) : Prop :=
  s.out.length < s.taken + crossoverBufferSize

instance (s : State) : Decidable s.room :=
  inferInstanceAs (Decidable (_ < _))

inductive Step : State → State → Prop
  -- The lock of the log is held from here until the broadcast is done.
  | persist {s} (e : XRPCStreamEvent) :
    s.pending = none → 0 < e.sequence → (∀ f ∈ s.persisted, f.sequence < e.sequence) →
    Step s { s with persisted := s.persisted ++ [e], pending := some e }
  | broadcast {s e} :
    s.pending = some e → s.inSubs = true → s.accepts = true → s.cleanup ≠ .closed →
    s.outgoing.length < bufferSize →
    Step s { s with pending := none, outgoing := s.outgoing ++ [e] }
  | broadcastDone {s e} :
    s.pending = some e → s.inSubs = true → s.accepts = true → s.cleanup ≠ .none →
    Step s { s with pending := none, skipped := true }
  | broadcastFull {s e} :
    s.pending = some e → s.inSubs = true → s.accepts = true → s.cleanup = .none →
    bufferSize ≤ s.outgoing.length →
    Step s { s with pending := none, accepts := false, dropping := true }
  | broadcastOthers {s e} :
    s.pending = some e → s.inSubs = false ∨ s.accepts = false →
    Step s { s with pending := none }
  -- The slow consumer is told, if there comes to be room, and then cleaned up.
  | tooSlow {s} :
    s.dropping = true → s.cleanup = .none → s.outgoing.length < bufferSize →
    Step s { s with dropping := false, outgoing := s.outgoing ++ [.error] }
  | tooSlowTimeout {s} :
    s.dropping = true → Step s { s with dropping := false }
  | cleanupDone {s} :
    s.cleanup = .none → Step s { s with cleanup := .done }
  | cleanupRemoved {s} :
    s.cleanup = .done → Step s { s with cleanup := .removed, inSubs := false }
  | cleanupClosed {s} :
    s.cleanup = .removed → Step s { s with cleanup := .closed }
  | take {s} :
    s.taken < s.out.length → Step s { s with taken := s.taken + 1 }
  | playbackSend {s lastSeq n bound e} :
    s.phase = .playback lastSeq n bound → (s.played since)[n]? = some e → s.room →
    Step s
      { s with
        phase := .playback (if 0 < sequenceForEvent e then sequenceForEvent e else lastSeq)
          (n + 1) bound
        out := s.out ++ [e] }
  | playbackEnd {s lastSeq n bound} :
    s.phase = .playback lastSeq n bound → bound ≤ n →
    Step s { s with phase := .caughtUp lastSeq }
  -- The playback fails, or is told that the subscriber is closing.
  | playbackFail {s lastSeq n bound} :
    s.phase = .playback lastSeq n bound → Step s { s with phase := .ended }
  | addSubscriber {s lastSeq} :
    s.phase = .caughtUp lastSeq → Step s { s with phase := .waiting lastSeq, inSubs := true }
  | first {s lastSeq e outgoing} :
    s.phase = .waiting lastSeq → s.outgoing = e :: outgoing →
    Step s { s with phase := .received lastSeq (some e), outgoing := outgoing }
  | firstClosed {s lastSeq} :
    s.phase = .waiting lastSeq → s.outgoing = [] → s.cleanup = .closed →
    Step s { s with phase := .received lastSeq none }
  | againStart {s lastSeq first} :
    s.phase = .received lastSeq first →
    Step s { s with phase := .again lastSeq first 0 (s.played lastSeq).length }
  | againSend {s lastSeq first n bound e} :
    s.phase = .again lastSeq first n bound → (s.played lastSeq)[n]? = some e →
    sequenceForEvent e ≤ sequenceForFirst first → s.room →
    Step s { s with phase := .again lastSeq first (n + 1) bound, out := s.out ++ [e] }
  | againCaughtUp {s lastSeq first n bound e} :
    s.phase = .again lastSeq first n bound → (s.played lastSeq)[n]? = some e →
    sequenceForFirst first < sequenceForEvent e →
    Step s { s with phase := .copying none }
  | againEnd {s lastSeq first n bound} :
    s.phase = .again lastSeq first n bound → bound ≤ n →
    Step s { s with phase := .copying none }
  | againFail {s lastSeq first n bound} :
    s.phase = .again lastSeq first n bound → Step s { s with phase := .ended }
  | copyReceive {s e outgoing} :
    s.phase = .copying none → s.outgoing = e :: outgoing →
    Step s { s with phase := .copying (some e), outgoing := outgoing }
  | copySend {s e} :
    s.phase = .copying (some e) → s.room →
    Step s { s with phase := .copying none, out := s.out ++ [e] }
  | copyDone {s e} :
    s.phase = .copying (some e) → s.cleanup ≠ .none → Step s { s with phase := .ended }
  | copyEnd {s} :
    s.phase = .copying none → s.outgoing = [] → s.cleanup = .closed →
    Step s { s with phase := .ended }
  | rmSubscriber {s} :
    s.phase = .ended → Step s { s with inSubs := false }

end Step

-- What is persisted when the call is made is up to the past.
structure Init (since : ℤ) (s : State) : Prop where
  ascending : Ascending.IsAscending sequenceForEvent s.persisted
  positive : ∀ e ∈ s.persisted, 0 < e.sequence
  pending : ∀ e ∈ s.pending, ∃ l, s.persisted = l ++ [e]
  state : s =
    { persisted := s.persisted
      pending := s.pending
      phase := .playback since 0 (s.played since).length
      inSubs := false
      accepts := true
      outgoing := []
      dropping := false
      cleanup := .none
      out := []
      taken := 0
      skipped := false }

def system (since : ℤ) : System State where
  init := Init since
  step := Step since

-- What was sent, error frames aside.
def State.events (s : State) : List XRPCStreamEvent :=
  s.out.filter (0 < ·.sequence)

end Relay.EventManager
