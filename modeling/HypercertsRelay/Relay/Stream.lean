import Mathlib

-- The messages of a `subscribeRepos` stream.
namespace Relay.Stream

inductive XRPCStreamEvent
  | repoCommit (repo rev : String) (seq : ℤ)
  | repoSync (did : String) (seq : ℤ)
  | repoIdentity (did : String) (seq : ℤ)
  | repoAccount (did : String) (active : Bool) (status : Option String) (seq : ℤ)
  | repoInfo
  | labelLabels (seq : ℤ)
  | error
  deriving DecidableEq, Repr

namespace XRPCStreamEvent

-- The number a message has on the stream.
def number : XRPCStreamEvent → Option ℤ
  | repoCommit _ _ seq | repoSync _ seq | repoIdentity _ seq | repoAccount _ _ _ seq
  | labelLabels seq => some seq
  | repoInfo | error => none

-- Labels are numbered, but not here.
def sequence : XRPCStreamEvent → ℤ
  | repoCommit _ _ seq | repoSync _ seq | repoIdentity _ seq | repoAccount _ _ _ seq => seq
  | repoInfo | labelLabels _ | error => -1

-- The repository under which a message is scheduled.
def repo : XRPCStreamEvent → String
  | repoCommit did _ _ | repoSync did _ | repoIdentity did _ | repoAccount did _ _ _ => did
  | repoInfo | labelLabels _ | error => ""

theorem number_of_sequence_pos {e : XRPCStreamEvent} (h : 0 < e.sequence) :
    e.number = some e.sequence := by
  cases e <;> first | rfl | exact absurd h (by simp [sequence])

end XRPCStreamEvent

end Relay.Stream
