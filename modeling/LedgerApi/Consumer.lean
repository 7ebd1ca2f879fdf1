import LedgerApi.Api
import LedgerApi.Library.JsonReader

/-! # Events on their way

What becomes of an event outside the database: the Pub/Sub transport of `app/publisher.py` sends its
payload as UTF-8, with the event's id and type as attributes, and the subscriber of
`scripts/consumer.py` reads it back (`decode`), drops what it has processed before, and counts the
rest by type. -/

namespace LedgerApi

/-! ## The transport -/

/-- A message of the broker. -/
structure PubsubMessage where
  data : ByteArray
  attributes : List (String × String)

/-- `message.attributes.get`. -/
def PubsubMessage.attribute (message : PubsubMessage) (name : String) : Option String :=
  (message.attributes.find? (·.1 = name)).map Prod.snd

/-- `PubSubTransport.publish`. -/
def Message.publish (m : Message) : PubsubMessage where
  data := m.payload.toUTF8
  attributes := [("event_id", m.eventId), ("event_type", m.eventType)]

/-- `json.loads(message.data.decode("utf-8"))`, if neither raises. -/
def PubsubMessage.decode (message : PubsubMessage) : Option Json.Data :=
  (String.fromUTF8? message.data).bind Json.loads

/-- What is encoded as UTF-8 is decoded to itself. -/
theorem fromUTF8_toUTF8 (text : String) : String.fromUTF8? text.toUTF8 = some text := by
  rw [String.fromUTF8?, String.toUTF8_eq_toByteArray, dif_pos text.isValidUTF8]
  rfl

/-- The consumer decodes the object that a payload was made of. -/
theorem decode_publish {m : Message} {o : Json.Object} (h : m.payload = Json.dumps o) :
    m.publish.decode = some (.object (o.map fun member => (member.1, member.2.data))) := by
  rw [PubsubMessage.decode, Message.publish, fromUTF8_toUTF8, Option.bind_some, h,
    Json.loads_dumps]

/-! ## The consumer -/

/-- The state of the consumer's process. -/
structure Consumer where
  /-- `dedup._seen` -/
  seen : List (Option String)
  totals : List (String × ℕ)
  deriving DecidableEq, Repr

/-- A process that has just started. -/
def Consumer.start : Consumer := ⟨[], [("deposit", 0), ("withdrawal", 0), ("transfer", 0)]⟩

/-- `dedup.is_duplicate`. -/
def Consumer.isDuplicate (c : Consumer) (eventId : Option String) : Bool := eventId ∈ c.seen

/-- `dedup.mark`. -/
def Consumer.mark (c : Consumer) (eventId : Option String) : Consumer :=
  { c with seen := if eventId ∈ c.seen then c.seen else c.seen ++ [eventId] }

/-- `totals[kind] += 1`, if `kind` is one of its keys. -/
def Consumer.count (c : Consumer) (kind : String) : Consumer :=
  { c with totals := c.totals.map fun total =>
      if total.1 = kind then (total.1, total.2 + 1) else total }

/-- `totals[kind]`. -/
def Consumer.total (c : Consumer) (kind : String) : ℕ :=
  ((c.totals.find? (·.1 = kind)).map Prod.snd).getD 0

/-- How the handling of a message ends. -/
inductive Disposition
  | ack
  | nack
  /-- An exception: the message is redelivered. -/
  | raised
  deriving DecidableEq, Repr

/-- `handle`, where `interrupted` tells whether one of its last steps, a `print` or the `ack`,
raises. -/
def handle (interrupted : Bool) (c : Consumer) (message : PubsubMessage) :
    Consumer × Disposition :=
  let eventId := message.attribute "event_id"
  let done := if interrupted then Disposition.raised else .ack
  if c.isDuplicate eventId then (c, done)
  else
    match message.decode with
    | none => (c, .nack)
    | some (.object members) =>
        match (Json.Data.object members).get? "type" with
        | some (.str kind) => ((c.count kind).mark eventId, done)
        -- a list or a dictionary is not hashable, so `in` raises
        | some (.array _) | some (.object _) => (c, .raised)
        | _ => (c.mark eventId, done)
    -- only a dictionary has `get`
    | some _ => (c, .raised)

end LedgerApi
