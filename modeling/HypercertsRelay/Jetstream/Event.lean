import Mathlib

abbrev Bytes := List UInt8

namespace Jetstream

inductive Kind
  | create | update | delete | identity | account | sync | createResync
  deriving DecidableEq, Repr

namespace Kind

-- Kinds that are rendered as commit-shaped events.
def isCommit : Kind → Bool
  | create | update | delete | createResync => true
  | identity | account | sync => false

-- Kinds that carry record bytes, i.e. the current value of a repository path.
def isMaterialization : Kind → Bool
  | create | update | createResync => true
  | delete | identity | account | sync => false

end Kind

-- One row of a segment block, without its timestamps and upstream cursor.
structure Event where
  seq : ℕ
  kind : Kind
  did : String
  collection : String
  rkey : String
  rev : String
  payload : Bytes
  deriving DecidableEq, Repr

structure RecordKey where
  did : String
  collection : String
  rkey : String
  deriving DecidableEq, Repr

def Event.key (ev : Event) : RecordKey where
  did := ev.did
  collection := ev.collection
  rkey := ev.rkey

-- The shapes a decoded CBOR value can have, as far as they are told apart.
inductive Cbor
  | text (s : String)
  | array (elems : List Cbor)
  | map (fields : List (String × Cbor))
  | other

-- The body of an account event, as far as it is read.
structure Account where
  active : Bool
  status : Option String
  deriving DecidableEq, Repr

-- The two CBOR decoders. They belong to another library and are left abstract.
structure Codec where
  unmarshal : Bytes → Except String Cbor
  unmarshalAccount : Bytes → Except String Account

end Jetstream
