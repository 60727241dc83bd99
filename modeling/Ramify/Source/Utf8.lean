import Ramify.Error
import Ramify.Source.Feed

/-!
# Decoding UTF-8

Characters are decoded one at a time, taking no byte more than the character
needs. The first byte announces how many bytes belong to the character; they
are all taken before they are judged, and together they are right when they
are the encoding of some character.

Whatever goes wrong ends the sequence of characters and is noted down for
later (`Reader.error`):

* a byte that cannot begin a character is reported alone;
* bytes that do not encode a character are reported together;
* so are the bytes before a premature end of the input;
* a failure of the source is reported as such, even inside a character.
-/

namespace Ramify.Source

/-- How many bytes a character has that begins with a byte; none if no
    character does. Bytes that only occur in overlong or too large encodings
    announce a number as well. -/
def announced (b : UInt8) : Nat :=
  if b < 0x80 then 1
  else if b < 0xc0 then 0
  else if b < 0xe0 then 2
  else if b < 0xf0 then 3
  else if b < 0xf8 then 4
  else 0

/-- The number that the last six bits of bytes spell out, behind `high`. -/
def spell (high : Nat) : List UInt8 → Nat
  | [] => high
  | b :: bs => spell (high * 64 + b.toNat % 64) bs

/-- The code point bytes stand for, read off without judging them. -/
def codePoint : List UInt8 → Nat
  | [] => 0
  | [b] => b.toNat
  | [b, c] => spell (b.toNat % 32) [c]
  | [b, c, d] => spell (b.toNat % 16) [c, d]
  | b :: bs => spell (b.toNat % 8) bs

/-- The character bytes are the encoding of, if they are one. -/
def decodeBytes (bytes : List UInt8) : Option Char :=
  let c := Char.ofNat (codePoint bytes)
  if String.utf8EncodeChar c = bytes then some c else none

/-- A decoder: the deliveries to come, and the first error if there was one. -/
structure Reader where
  /-- The deliveries to come. -/
  feed : Feed
  /-- The first error. -/
  error : Option ParseError

namespace Reader

/-- A reader at the start of a feed. -/
def ofFeed (feed : Feed) : Reader := ⟨feed, none⟩

/-- Takes `count` more bytes behind those taken already, which are listed
    backwards. The end of the input is an error here. -/
def takeBytes : Nat → List UInt8 → Feed → Except ParseError (List UInt8) × Feed
  | 0, taken, feed => (.ok taken.reverse, feed)
  | count + 1, taken, feed =>
    match feed.next with
    | (.error reason, feed) => (.error (.source reason), feed)
    | (.ok none, feed) => (.error (.invalidUtf8 taken.reverse), feed)
    | (.ok (some b), feed) => takeBytes count (b :: taken) feed

/-- Decodes one character, or nothing at the end of the input. -/
def decode (feed : Feed) : Except ParseError (Option Char) × Feed :=
  match feed.next with
  | (.error reason, feed) => (.error (.source reason), feed)
  | (.ok none, feed) => (.ok none, feed)
  | (.ok (some b), feed) =>
    if announced b = 0 then (.error (.invalidUtf8 [b]), feed)
    else
      match takeBytes (announced b - 1) [b] feed with
      | (.error e, feed) => (.error e, feed)
      | (.ok bytes, feed) =>
        match decodeBytes bytes with
        | some c => (.ok (some c), feed)
        | none => (.error (.invalidUtf8 bytes), feed)

/-- The next character. An error ends the characters and is noted down,
    unless there was one before. -/
def next (r : Reader) : Option Char × Reader :=
  match decode r.feed with
  | (.ok c, feed) => (c, { r with feed := feed })
  | (.error e, feed) => (none, ⟨feed, r.error <|> some e⟩)

end Reader

end Ramify.Source
