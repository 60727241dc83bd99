import Mathlib.Order.Bounds.Basic
import Ramify.Proofs.Source.Decoding

/-!
# Valid UTF-8

A list of bytes is valid UTF-8 if it is the encoding of some characters. What a reader
decodes are the characters of the longest beginning of its bytes that is valid
(`Decodes.isGreatest`), and the error, if there is one, shows the bytes right behind it:
as many as the first of them announces (`span`), or as there are (`Decodes.error_eq`).

So a tape of a reader tells just these characters, and once it has come to their end the
error is noted down (`Reader.reads_validPrefix`). The bytes may arrive in any deliveries.
-/

namespace Ramify.Source

/-- Bytes are valid UTF-8. -/
def Valid (bytes : List UInt8) : Prop := bytes.toByteArray.IsValidUTF8

instance : DecidablePred Valid := fun bytes =>
  inferInstanceAs (Decidable bytes.toByteArray.IsValidUTF8)

/-- The number of bytes that a byte spans: two if its bits begin with 110, three if they
    begin with 1110, four if they begin with 11110, and otherwise itself only. -/
def span (b : UInt8) : Nat :=
  if b &&& 0xe0 = 0xc0 then 2
  else if b &&& 0xf0 = 0xe0 then 3
  else if b &&& 0xf8 = 0xf0 then 4
  else 1

/-- It spans the bytes that it announces, and at least itself. -/
theorem span_eq (b : UInt8) : span b = max 1 (announced b) := by
  have hall : ∀ n : Fin 256, span (.ofFin n) = max 1 (announced (.ofFin n)) := by
    decide +kernel
  exact hall b.toFin

/-! ### Validity -/

variable {b : UInt8} {bs bytes : List UInt8} {cs : List Char}
  {e : Option ParseError} {cut : Option String}

theorem valid_nil : Valid [] := ⟨[], rfl⟩

/-- Characters in front make no difference. -/
theorem valid_append_iff : Valid (cs.flatMap String.utf8EncodeChar ++ bytes) ↔ Valid bytes := by
  induction cs with
  | nil => rfl
  | cons c cs ih =>
    rw [List.flatMap_cons, List.append_assoc, Valid, List.toByteArray_append,
      ← List.utf8Encode_singleton, ByteArray.isValidUTF8_utf8Encode_singleton_append_iff]
    exact ih

/-- Valid bytes begin with a character. -/
theorem Valid.exists_char (h : Valid (b :: bs)) :
    ∃ c rest, b :: bs = String.utf8EncodeChar c ++ rest := by
  obtain ⟨cs, hcs⟩ := h
  rw [List.utf8Encode, List.toByteArray_inj] at hcs
  cases cs with
  | nil => cases hcs
  | cons c cs => exact ⟨c, _, hcs⟩

/-- Nothing but a character of as many bytes as announced can be at the beginning. -/
theorem Valid.of_take {q : Nat} (h : Valid ((b :: bs).take q)) (hq : 0 < q) :
    ∃ c rest, announced b = rest.length + 1 ∧ rest <+: bs ∧
      String.utf8EncodeChar c = b :: rest := by
  obtain ⟨q, rfl⟩ := Nat.exists_eq_succ_of_ne_zero (Nat.ne_zero_of_lt hq)
  rw [List.take_succ_cons] at h
  obtain ⟨c, behind, hc⟩ := h.exists_char
  obtain ⟨b', rest, hencoded, hcount⟩ := exists_utf8EncodeChar c
  rw [hencoded, List.cons_append, List.cons.injEq] at hc
  obtain ⟨rfl, hrest⟩ := hc
  exact ⟨c, rest, hcount, (hrest ▸ List.prefix_append rest behind).trans (List.take_prefix q bs),
    hencoded⟩

/-! ### Where the characters end -/

namespace Decodes

/-- Behind the characters, there is nothing more to decode. -/
theorem exists_behind (h : Decodes cut bytes cs e) :
    ∃ behind, bytes = cs.flatMap String.utf8EncodeChar ++ behind ∧ Decodes cut behind [] e := by
  induction h with
  | finish => exact ⟨[], rfl, .finish⟩
  | char _ ih =>
    obtain ⟨behind, rfl, hbehind⟩ := ih
    exact ⟨behind, by rw [List.flatMap_cons, List.append_assoc], hbehind⟩
  | stray hstray => exact ⟨_, rfl, .stray hstray⟩
  | short hshort => exact ⟨_, rfl, .short hshort⟩
  | wrong hcount hwrong => exact ⟨_, rfl, .wrong hcount hwrong⟩

/-- Nor is there anything valid. -/
theorem eq_zero_of_valid (h : Decodes cut bytes [] e) {q : Nat} (hq : q ≤ bytes.length)
    (hvalid : Valid (bytes.take q)) : q = 0 := by
  refine Nat.eq_zero_of_not_pos fun hpos => ?_
  cases h with
  | finish => exact Nat.not_lt_of_le hq hpos
  | stray hstray =>
    obtain ⟨c, rest, hcount, -⟩ := hvalid.of_take hpos
    omega
  | short hshort =>
    obtain ⟨c, rest, hcount, hprefix, -⟩ := hvalid.of_take hpos
    have := hprefix.length_le
    omega
  | @wrong b bs behind hcount hwrong =>
    obtain ⟨c, rest, hcount', hprefix, hc⟩ := hvalid.of_take hpos
    have hlen : rest.length = bs.length := by omega
    have heq := List.prefix_of_prefix_length_le hprefix (List.prefix_append bs behind)
      (Nat.le_of_eq hlen)
    exact hwrong c (hc.trans (congrArg _ (heq.eq_of_length hlen)))

/-- The error shows the bytes that the first one spans. -/
theorem error_of_nil (h : Decodes none bytes [] e) :
    e = bytes.head?.map fun b => .invalidUtf8 (bytes.take (span b)) := by
  cases h with
  | finish => rfl
  | stray hstray => simp [span_eq, hstray]
  | @short b bs hshort =>
    have hspan : (b :: bs).length ≤ span b := by
      rw [span_eq, List.length_cons]
      omega
    simp [List.take_of_length_le hspan]
  | @wrong b bs behind hcount =>
    have hspan : span b = (b :: bs).length := by
      rw [span_eq, hcount, List.length_cons]
      omega
    simp [hspan]

/-- What is decoded is the longest valid beginning. -/
theorem isGreatest (h : Decodes cut bytes cs e) :
    IsGreatest {q | q ≤ bytes.length ∧ Valid (bytes.take q)}
      (cs.flatMap String.utf8EncodeChar).length := by
  obtain ⟨behind, rfl, hbehind⟩ := h.exists_behind
  constructor
  · refine ⟨by simp, ?_⟩
    rw [List.take_left, ← List.append_nil (cs.flatMap _), valid_append_iff]
    exact valid_nil
  · rintro q ⟨hle, hvalid⟩
    refine Nat.le_of_not_lt fun hlt => ?_
    obtain ⟨r, rfl⟩ := Nat.exists_eq_add_of_lt hlt
    rw [Nat.add_assoc, List.take_length_add_append, valid_append_iff] at hvalid
    rw [List.length_append] at hle
    exact Nat.succ_ne_zero r (hbehind.eq_zero_of_valid (by omega) hvalid)

/-- The error shows the bytes behind it that the first of them spans. -/
theorem error_eq (h : Decodes none bytes cs e) {p : Nat}
    (hp : p = (cs.flatMap String.utf8EncodeChar).length) :
    e = bytes[p]?.map fun b => .invalidUtf8 ((bytes.drop p).take (span b)) := by
  obtain ⟨behind, rfl, hbehind⟩ := h.exists_behind
  rw [hp, List.drop_left, ← List.head?_drop, List.drop_left]
  exact hbehind.error_of_nil

end Decodes

namespace Reader

/-- The characters that a reader yields are those of the longest beginning of its bytes
    that is valid. However often it is read, nothing comes behind them; and once they
    have come to an end, the error is noted down. There is none if all bytes are valid,
    as those of a text are, and otherwise it shows the bytes behind the valid ones: as
    many as the first of them spans, or as there are. -/
theorem reads_validPrefix {feed : Feed} (h : feed.contents = (bytes, none)) :
    ∃ p cs, IsGreatest {q | q ≤ bytes.length ∧ Valid (bytes.take q)} p ∧
      bytes.take p = cs.flatMap String.utf8EncodeChar ∧
      (∀ count, ∃ t : Fork.Tape Reader Char, (Fork.Tape.new next (ofFeed feed)).read 0 count =
          .ok ((List.range count).map (cs[·]?), t) ∧
        (cs.length < count →
          (t.state.error = none ↔ p = bytes.length) ∧
          t.state.error = bytes[p]?.map fun b => .invalidUtf8 ((bytes.drop p).take (span b)))) ∧
      ∀ text : String, bytes.toByteArray = text.toUTF8 → p = bytes.length ∧ cs = text.toList := by
  obtain ⟨cs, e, hdecodes⟩ := exists_decodes none bytes
  have hgives : feed.Gives cs e := by
    rw [Feed.Gives, h]
    exact hdecodes
  have hgreatest := hdecodes.isGreatest
  refine ⟨_, cs, hgreatest, ?_, fun count => ?_, fun text htext => ?_⟩
  · obtain ⟨behind, rfl, -⟩ := hdecodes.exists_behind
    exact List.take_left
  · have hf := Fork.Tape.fed_new (yields hgives)
    obtain ⟨t, hread⟩ := hf.tells.read Fork.Tape.use_new count
    obtain ⟨hf', d, hd, hreads⟩ := hf.read Fork.Tape.use_new hread
    simp only [Fork.Cursor.start, Nat.zero_add] at hread hreads
    refine ⟨t, hread, fun hlt => ?_⟩
    have hfilled : ¬t.filled ≤ cs.length := by
      have := hf'.tells.reads hd
      omega
    have herror := hdecodes.error_eq rfl
    rw [error_of_fed hgives hf', if_neg hfilled]
    refine ⟨?_, herror⟩
    rw [herror, Option.map_eq_none_iff, List.getElem?_eq_none_iff]
    exact ⟨hgreatest.1.1.antisymm, Nat.le_of_eq ∘ Eq.symm⟩
  · rw [String.toUTF8_eq_toByteArray, ← String.utf8Encode_toList, List.utf8Encode,
      List.toByteArray_inj] at htext
    have hencoded : feed.Gives text.toList none := Feed.gives_none_iff.2 (htext ▸ h)
    obtain ⟨rfl, -⟩ := gives_unique hgives hencoded
    exact ⟨congrArg List.length htext.symm, rfl⟩

/-- An 'a' and a '€' that is spread over two deliveries, and then three bytes of which the
    second one does not go on with what the first one begins. -/
def brokenOff : Feed :=
  [.bytes [0x61, 0xe2], .interrupted, .bytes [0x82, 0xac, 0xe2, 0x28], .bytes [0xa1]]

theorem reads_validPrefix_brokenOff :
    brokenOff.contents = ([0x61, 0xe2, 0x82, 0xac, 0xe2, 0x28, 0xa1], none) ∧
    ∃ t, (Fork.Tape.new next (ofFeed brokenOff)).read 0 3 = .ok ([some 'a', some '€', none], t) ∧
      t.state.error = some (.invalidUtf8 [0xe2, 0x28, 0xa1]) := by
  have hcontents : brokenOff.contents = ([0x61, 0xe2, 0x82, 0xac, 0xe2, 0x28, 0xa1], none) := rfl
  obtain ⟨p, cs, hgreatest, htake, hread, -⟩ := reads_validPrefix hcontents
  obtain rfl : p = 4 := by
    have hvalid : ∀ q ≤ 7, Valid (List.take q [0x61, 0xe2, 0x82, 0xac, 0xe2, 0x28, 0xa1]) →
        q ≤ 4 := by decide +kernel
    exact hgreatest.unique ⟨⟨by decide, by decide +kernel⟩, fun q hq => hvalid q hq.1 hq.2⟩
  obtain rfl : cs = ['a', '€'] := by
    have hencoded : (String.ofList cs).toByteArray = (String.ofList ['a', '€']).toByteArray := by
      rw [String.toByteArray_ofList, String.toByteArray_ofList, List.utf8Encode, ← htake]
      rfl
    exact String.ofList_inj.1 (String.toByteArray_inj.1 hencoded)
  obtain ⟨t, hread, herror⟩ := hread 3
  exact ⟨hcontents, t, hread, (herror (by decide)).2⟩

end Reader

end Ramify.Source
