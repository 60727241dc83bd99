/-!
# Feeds of bytes

Bytes that come from outside arrive in *deliveries*, one for each time the
source is asked for more. A delivery may bring bytes, may be interrupted, in
which case the source is simply asked again, or may fail. A delivery that
brings no bytes is the end of the input, as is running out of deliveries.

How the bytes are spread over deliveries makes no difference to whoever takes
them one at a time (`Feed.next`).
-/

namespace Ramify.Source

/-- The outcome of asking a source for more. -/
inductive Delivery where
  /-- Some bytes; none at the end of the input. -/
  | bytes (bs : List UInt8)
  /-- Nothing yet: ask again. -/
  | interrupted
  /-- The source cannot be read. -/
  | failure (reason : String)

/-- The deliveries to come. -/
abbrev Feed := List Delivery

namespace Feed

/-- The next byte, nothing at the end of the input, or the reason of a
    failure, and the deliveries left. -/
def next : Feed → Except String (Option UInt8) × Feed
  | [] => (.ok none, [])
  | .bytes [] :: rest => (.ok none, rest)
  | .bytes [b] :: rest => (.ok (some b), rest)
  | .bytes (b :: bs) :: rest => (.ok (some b), .bytes bs :: rest)
  | .interrupted :: rest => next rest
  | .failure reason :: rest => (.error reason, rest)

/-- The number of bytes in all deliveries. -/
def byteCount (feed : Feed) : Nat :=
  feed.foldl (fun
    | count, .bytes bs => count + bs.length
    | count, _ => count) 0

end Feed

end Ramify.Source
