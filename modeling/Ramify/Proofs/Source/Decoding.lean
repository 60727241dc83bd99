import Mathlib.Data.List.Basic
import Mathlib.Logic.Function.Iterate
import Ramify.Proofs.Fork.Chunks
import Ramify.Source.Utf8

/-!
# What a reader decodes

The deliveries of a feed come to a list of bytes, however they are spread, and
possibly a failure behind them (`Feed.contents`). What it means to decode them is
said without reference to a decoder (`Decodes`): encodings of characters one after
the other, up to the end of the bytes or up to the first thing that is wrong.

A reader yields just these characters, and its error is noted down when it is asked
once more than there are characters, and no sooner (`Reader.error_iterate`). So a tape of
the reader gets the error with the first place behind the characters
(`Reader.error_of_fed`).
-/

namespace Ramify.Source

/-! ### Bytes -/

namespace Feed

/-- The bytes that a feed brings, and the reason why there are no more of them if it
    is not the end of the input. -/
def contents : Feed → List UInt8 × Option String
  | [] => ([], none)
  | .bytes [] :: _ => ([], none)
  | .bytes (b :: bs) :: rest => (b :: bs ++ (contents rest).1, (contents rest).2)
  | .interrupted :: rest => contents rest
  | .failure reason :: _ => ([], some reason)

variable {feed : Feed} {b : UInt8} {bs : List UInt8} {cut : Option String}

/-- There is no byte at the end of the input. -/
theorem next_of_nil (h : feed.contents = ([], none)) : ∃ rest, feed.next = (.ok none, rest) := by
  induction feed with
  | nil => exact ⟨[], rfl⟩
  | cons d feed ih =>
    cases d with
    | bytes bs =>
      cases bs with
      | nil => exact ⟨feed, rfl⟩
      | cons b bs => cases h
    | interrupted => exact ih h
    | failure reason => cases h

/-- Nor is there one where the source fails. -/
theorem next_of_failure {reason : String} (h : feed.contents = ([], some reason)) :
    ∃ rest, feed.next = (.error reason, rest) := by
  induction feed with
  | nil => cases h
  | cons d feed ih =>
    cases d with
    | bytes bs => cases bs <;> cases h
    | interrupted => exact ih h
    | failure reason =>
      cases h
      exact ⟨feed, rfl⟩

/-- The bytes come one after the other. -/
theorem next_of_cons (h : feed.contents = (b :: bs, cut)) :
    ∃ rest, feed.next = (.ok (some b), rest) ∧ contents rest = (bs, cut) := by
  induction feed with
  | nil => cases h
  | cons d feed ih =>
    cases d with
    | bytes cs =>
      cases cs with
      | nil => cases h
      | cons c cs =>
        cases h
        cases cs with
        | nil => exact ⟨feed, rfl, rfl⟩
        | cons c' cs => exact ⟨.bytes (c' :: cs) :: feed, rfl, rfl⟩
    | interrupted => exact ih h
    | failure reason => cases h

theorem length_contents_le (feed : Feed) : feed.contents.1.length ≤ feed.byteCount := by
  obtain ⟨f, hcount, hbytes, hle⟩ : ∃ f : Nat → Delivery → Nat,
      (∀ feed : Feed, feed.byteCount = feed.foldl f 0) ∧
      (∀ count bs, f count (.bytes bs) = count + bs.length) ∧ ∀ count d, count ≤ f count d :=
    ⟨_, fun _ => rfl, fun _ _ => rfl, fun count d => by cases d <;> simp⟩
  have hfoldl : ∀ (feed : Feed) (count : Nat),
      count + feed.contents.1.length ≤ feed.foldl f count := by
    intro feed
    induction feed with
    | nil => exact fun count => Nat.le_refl _
    | cons d feed ih =>
      intro count
      rw [List.foldl_cons]
      have hrest := ih (f count d)
      have hd := hle count d
      cases d with
      | bytes bs =>
        rw [hbytes] at hrest hd ⊢
        cases bs with
        | nil => exact Nat.le_trans (Nat.add_le_add_left (Nat.zero_le _) count) hrest
        | cons b bs =>
          rw [contents, List.length_append]
          omega
      | interrupted => exact Nat.le_trans (Nat.add_le_add_right hd _) hrest
      | failure => exact Nat.le_trans (Nat.le_trans hd (Nat.le_add_right _ _)) hrest
  rw [hcount]
  simpa using hfoldl feed 0

end Feed

/-! ### Encodings -/

section Encoding

variable (c : Char)

theorem codePoint_utf8EncodeChar : codePoint (String.utf8EncodeChar c) = c.toNat := by
  have hlt : c.toNat < 0x110000 := by
    rcases c.valid with h | h <;> simp only [Char.toNat] <;> omega
  rw [String.utf8EncodeChar]
  simp only [Char.toNat] at hlt ⊢
  split
  · simp only [codePoint, UInt8.toNat_ofNat']
    omega
  · split
    · simp only [codePoint, spell, UInt8.toNat_ofNat']
      omega
    · split
      · simp only [codePoint, spell, UInt8.toNat_ofNat']
        omega
      · simp only [codePoint, spell, UInt8.toNat_ofNat']
        omega

theorem decodeBytes_utf8EncodeChar : decodeBytes (String.utf8EncodeChar c) = some c := by
  rw [decodeBytes, codePoint_utf8EncodeChar, Char.ofNat_toNat]
  exact if_pos rfl

theorem announced_ofNat {n : Nat} (hn : n < 256) : announced (.ofNat n) =
    if n < 0x80 then 1 else if n < 0xc0 then 0 else if n < 0xe0 then 2
    else if n < 0xf0 then 3 else if n < 0xf8 then 4 else 0 := by
  have htoNat : (UInt8.ofNat n).toNat = n := by
    rw [UInt8.toNat_ofNat', Nat.mod_eq_of_lt hn]
  simp only [announced, UInt8.lt_iff_toNat_lt, htoNat, UInt8.reduceToNat]

/-- The first byte of a character announces how many there are. -/
theorem exists_utf8EncodeChar :
    ∃ b bs, String.utf8EncodeChar c = b :: bs ∧ announced b = bs.length + 1 := by
  have hlt : c.val.toNat < 0x110000 := by
    rcases c.valid with h | h <;> omega
  rw [String.utf8EncodeChar]
  split
  · refine ⟨_, _, rfl, ?_⟩
    rw [announced_ofNat (by omega), if_pos (by omega)]
    rfl
  · split
    · refine ⟨_, _, rfl, ?_⟩
      rw [announced_ofNat (by omega), if_neg (by omega), if_neg (by omega), if_pos (by omega)]
      rfl
    · split
      · refine ⟨_, _, rfl, ?_⟩
        rw [announced_ofNat (by omega), if_neg (by omega), if_neg (by omega), if_neg (by omega),
          if_pos (by omega)]
        rfl
      · refine ⟨_, _, rfl, ?_⟩
        rw [announced_ofNat (by omega), if_neg (by omega), if_neg (by omega), if_neg (by omega),
          if_neg (by omega), if_pos (by omega)]
        rfl

end Encoding

/-! ### Decoding -/

/-- Bytes decode to characters, and to an error where they do not go on to the end.
    Behind the bytes, the source may have failed for the reason `cut`. -/
inductive Decodes (cut : Option String) : List UInt8 → List Char → Option ParseError → Prop
  /-- The end of the input, or the failure. -/
  | finish : Decodes cut [] [] (cut.map .source)
  /-- The encoding of a character. -/
  | char {c : Char} {bytes : List UInt8} {cs : List Char} {e : Option ParseError} :
    Decodes cut bytes cs e → Decodes cut (String.utf8EncodeChar c ++ bytes) (c :: cs) e
  /-- A byte that no character begins with. -/
  | stray {b : UInt8} {bytes : List UInt8} : announced b = 0 →
    Decodes cut (b :: bytes) [] (some (.invalidUtf8 [b]))
  /-- Fewer bytes than were announced. -/
  | short {b : UInt8} {bs : List UInt8} : bs.length + 1 < announced b →
    Decodes cut (b :: bs) [] (some (cut.elim (.invalidUtf8 (b :: bs)) .source))
  /-- As many bytes as were announced, which are not the encoding of a character. -/
  | wrong {b : UInt8} {bs bytes : List UInt8} : announced b = bs.length + 1 →
    (∀ c, String.utf8EncodeChar c ≠ b :: bs) →
    Decodes cut (b :: bs ++ bytes) [] (some (.invalidUtf8 (b :: bs)))

section Decodes

variable {cut : Option String} {bytes : List UInt8} {cs : List Char} {e : Option ParseError}

theorem Decodes.of_encoded (cs : List Char) :
    Decodes cut (cs.flatMap String.utf8EncodeChar) cs (cut.map .source) := by
  induction cs with
  | nil => exact .finish
  | cons c cs ih => exact ih.char

/-- Bytes that decode without an error are the encoding of the characters. -/
theorem Decodes.eq_encoded (h : Decodes cut bytes cs none) :
    cut = none ∧ bytes = cs.flatMap String.utf8EncodeChar := by
  generalize he : (none : Option ParseError) = e at h
  induction h with
  | finish => exact ⟨Option.map_eq_none_iff.1 he.symm, rfl⟩
  | char _ ih =>
    obtain ⟨hcut, rfl⟩ := ih he
    exact ⟨hcut, rfl⟩
  | stray | short | wrong => cases he

/-- All bytes can be decoded up to some error, if not to the end. -/
theorem exists_decodes (cut : Option String) (bytes : List UInt8) :
    ∃ cs e, Decodes cut bytes cs e := by
  induction hn : bytes.length using Nat.strongRecOn generalizing bytes with
  | ind n ih =>
    cases bytes with
    | nil => exact ⟨[], _, .finish⟩
    | cons b bytes =>
      by_cases hstray : announced b = 0
      · exact ⟨[], _, .stray hstray⟩
      by_cases hshort : bytes.length + 1 < announced b
      · exact ⟨[], _, .short hshort⟩
      have hlen : (bytes.take (announced b - 1)).length = announced b - 1 := by
        rw [List.length_take]
        omega
      rw [← List.take_append_drop (announced b - 1) bytes, ← List.cons_append]
      by_cases hchar : ∃ c, String.utf8EncodeChar c = b :: bytes.take (announced b - 1)
      · obtain ⟨c, hc⟩ := hchar
        obtain ⟨cs, e, h⟩ := ih _ (by
          rw [List.length_drop, ← hn, List.length_cons]
          omega) (bytes.drop (announced b - 1)) rfl
        exact ⟨c :: cs, e, hc ▸ h.char⟩
      · exact ⟨[], _, .wrong (by omega) fun c hc => hchar ⟨c, hc⟩⟩

end Decodes

/-- What there is to decode in a feed. -/
def Feed.Gives (feed : Feed) (cs : List Char) (e : Option ParseError) : Prop :=
  Decodes feed.contents.2 feed.contents.1 cs e

theorem Feed.gives_none_iff {feed : Feed} {cs : List Char} : feed.Gives cs none ↔
    feed.contents = (cs.flatMap String.utf8EncodeChar, none) := by
  constructor
  · intro h
    obtain ⟨hcut, hbytes⟩ := h.eq_encoded
    exact Prod.ext hbytes hcut
  · intro h
    rw [Gives, h]
    exact .of_encoded cs

namespace Reader

variable {feed : Feed} {c : Char} {cs : List Char} {e err : Option ParseError}
  {bs bytes : List UInt8} {cut : Option String}

theorem takeBytes_eq_ok (h : feed.contents = (bs ++ bytes, cut)) (taken : List UInt8) :
    ∃ rest, takeBytes bs.length taken feed = (.ok (taken.reverse ++ bs), rest) ∧
      rest.contents = (bytes, cut) := by
  induction bs generalizing feed taken with
  | nil =>
    refine ⟨feed, ?_, h⟩
    rw [List.append_nil]
    rfl
  | cons b bs ih =>
    obtain ⟨rest, hnext, hrest⟩ := Feed.next_of_cons h
    obtain ⟨rest', heq, hrest'⟩ := ih hrest (b :: taken)
    refine ⟨rest', ?_, hrest'⟩
    rw [List.length_cons, takeBytes, hnext]
    dsimp only
    rw [heq, List.reverse_cons, List.append_assoc]
    rfl

theorem takeBytes_eq_error {count : Nat} (h : feed.contents = (bs, cut)) (hlt : bs.length < count)
    (taken : List UInt8) : ∃ rest, takeBytes count taken feed =
      (.error (cut.elim (.invalidUtf8 (taken.reverse ++ bs)) .source), rest) := by
  obtain ⟨count, rfl⟩ := Nat.exists_eq_succ_of_ne_zero (Nat.ne_zero_of_lt hlt)
  induction bs generalizing feed taken count with
  | nil =>
    rw [takeBytes]
    cases cut with
    | none =>
      obtain ⟨rest, hnext⟩ := Feed.next_of_nil h
      rw [hnext, List.append_nil]
      exact ⟨rest, rfl⟩
    | some reason =>
      obtain ⟨rest, hnext⟩ := Feed.next_of_failure h
      rw [hnext]
      exact ⟨rest, rfl⟩
  | cons b bs ih =>
    have hlt' := Nat.lt_of_succ_lt_succ hlt
    obtain ⟨count, rfl⟩ := Nat.exists_eq_succ_of_ne_zero (Nat.ne_zero_of_lt hlt')
    obtain ⟨rest, hnext, hrest⟩ := Feed.next_of_cons h
    obtain ⟨rest', htake⟩ := ih hrest (b :: taken) count hlt'
    refine ⟨rest', ?_⟩
    rw [takeBytes, hnext]
    dsimp only
    rw [htake, List.reverse_cons, List.append_assoc]
    rfl

/-- A character is decoded. -/
theorem decode_of_cons (h : feed.Gives (c :: cs) e) :
    ∃ rest : Feed, decode feed = (.ok (some c), rest) ∧ rest.Gives cs e := by
  rw [Feed.Gives] at h
  generalize hcontents : feed.contents = contents at h
  obtain ⟨bytes, cut⟩ := contents
  cases h with
  | @char _ bytes _ _ h =>
    obtain ⟨b, bs, hencoded, hcount⟩ := exists_utf8EncodeChar c
    have hdecode := decodeBytes_utf8EncodeChar c
    rw [hencoded] at hcontents hdecode
    obtain ⟨rest, hnext, hrest⟩ := Feed.next_of_cons hcontents
    obtain ⟨rest', htake, hrest'⟩ := takeBytes_eq_ok hrest [b]
    refine ⟨rest', ?_, ?_⟩
    · rw [decode, hnext]
      dsimp only
      rw [if_neg (by omega), hcount, Nat.add_sub_cancel, htake]
      dsimp only
      rw [List.reverse_singleton, List.singleton_append, hdecode]
    · rw [Feed.Gives, hrest']
      exact h

/-- Where no characters are left, there is nothing to decode, or an error. -/
theorem decode_of_nil (h : feed.Gives [] e) :
    ∃ rest, decode feed = (e.elim (.ok none) .error, rest) := by
  rw [Feed.Gives] at h
  generalize hcontents : feed.contents = contents at h
  obtain ⟨bytes, cut⟩ := contents
  rw [decode]
  cases h with
  | finish =>
    cases cut with
    | none =>
      obtain ⟨rest, hnext⟩ := Feed.next_of_nil hcontents
      rw [hnext]
      exact ⟨rest, rfl⟩
    | some reason =>
      obtain ⟨rest, hnext⟩ := Feed.next_of_failure hcontents
      rw [hnext]
      exact ⟨rest, rfl⟩
  | stray hstray =>
    obtain ⟨rest, hnext, -⟩ := Feed.next_of_cons hcontents
    rw [hnext]
    dsimp only
    rw [if_pos hstray]
    exact ⟨rest, rfl⟩
  | @short b bs hshort =>
    obtain ⟨rest, hnext, hrest⟩ := Feed.next_of_cons hcontents
    obtain ⟨rest', htake⟩ := takeBytes_eq_error hrest (Nat.lt_sub_of_add_lt hshort) [b]
    rw [hnext]
    dsimp only
    rw [if_neg (by omega), htake]
    exact ⟨rest', rfl⟩
  | @wrong b bs bytes hcount hwrong =>
    obtain ⟨rest, hnext, hrest⟩ := Feed.next_of_cons hcontents
    obtain ⟨rest', htake, -⟩ := takeBytes_eq_ok hrest [b]
    have hnone : decodeBytes (b :: bs) = none := if_neg (hwrong _)
    rw [hnext]
    dsimp only
    rw [if_neg (by omega), hcount, Nat.add_sub_cancel, htake]
    dsimp only
    rw [List.reverse_singleton, List.singleton_append, hnone]
    exact ⟨rest', rfl⟩

/-- There is but one way to decode a feed. -/
theorem gives_unique {cs' : List Char} {e' : Option ParseError} (h : feed.Gives cs e)
    (h' : feed.Gives cs' e') : cs = cs' ∧ e = e' := by
  induction cs generalizing feed cs' with
  | nil =>
    obtain ⟨rest, hdecode⟩ := decode_of_nil h
    cases cs' with
    | nil =>
      obtain ⟨rest', hdecode'⟩ := decode_of_nil h'
      have heq := congrArg Prod.fst (hdecode.symm.trans hdecode')
      cases e <;> cases e' <;> cases heq <;> exact ⟨rfl, rfl⟩
    | cons c' cs' =>
      obtain ⟨rest', hdecode', -⟩ := decode_of_cons h'
      have heq := congrArg Prod.fst (hdecode.symm.trans hdecode')
      cases e <;> cases heq
  | cons c cs ih =>
    obtain ⟨rest, hdecode, hrest⟩ := decode_of_cons h
    cases cs' with
    | nil =>
      obtain ⟨rest', hdecode'⟩ := decode_of_nil h'
      have heq := congrArg Prod.fst (hdecode.symm.trans hdecode')
      cases e' <;> cases heq
    | cons c' cs' =>
      obtain ⟨rest', hdecode', hrest'⟩ := decode_of_cons h'
      cases hdecode.symm.trans hdecode'
      obtain ⟨rfl, rfl⟩ := ih hrest hrest'
      exact ⟨rfl, rfl⟩

/-! ### Reading -/

theorem next_of_cons (h : feed.Gives (c :: cs) e) :
    ∃ rest : Feed, next ⟨feed, err⟩ = (some c, ⟨rest, err⟩) ∧ rest.Gives cs e := by
  obtain ⟨rest, hdecode, hrest⟩ := decode_of_cons h
  refine ⟨rest, ?_, hrest⟩
  rw [next, hdecode]

/-- At the end the error is noted down, if there is one. -/
theorem next_of_nil (h : feed.Gives [] e) :
    (next ⟨feed, none⟩).1 = none ∧ (next ⟨feed, none⟩).2.error = e := by
  obtain ⟨rest, hdecode⟩ := decode_of_nil h
  rw [next]
  dsimp only
  rw [hdecode]
  cases e <;> exact ⟨rfl, rfl⟩

theorem yields (h : feed.Gives cs e) : Fork.Tape.Yields next cs (ofFeed feed) := by
  rw [ofFeed]
  induction cs generalizing feed with
  | nil => exact (next_of_nil h).1
  | cons c cs ih =>
    obtain ⟨rest, hnext, hrest⟩ := next_of_cons h
    exact ⟨congrArg Prod.fst hnext, congrArg Prod.snd hnext ▸ ih hrest⟩

/-- The error is noted down when a reader is asked for the first character that is
    not there, and no sooner. -/
theorem error_iterate (h : feed.Gives cs e) {n : Nat} (hn : n ≤ cs.length + 1) :
    ((fun r => (next r).2)^[n] (ofFeed feed)).error = if n ≤ cs.length then none else e := by
  rw [ofFeed]
  induction cs generalizing feed n with
  | nil =>
    cases n with
    | zero => rfl
    | succ n =>
      obtain rfl : n = 0 := by simpa using hn
      exact (next_of_nil h).2
  | cons c cs ih =>
    cases n with
    | zero => rfl
    | succ n =>
      obtain ⟨rest, hnext, hrest⟩ := @next_of_cons feed c cs e none h
      rw [Function.iterate_succ_apply, hnext, ih hrest (Nat.le_of_succ_le_succ hn)]
      simp only [List.length_cons, Nat.add_le_add_iff_right]

/-- On a tape, it is noted down when a place behind the characters is filled. -/
theorem error_of_fed (h : feed.Gives cs e) {t : Fork.Tape Reader Char}
    (hf : (Fork.Tape.new next (ofFeed feed)).Fed cs t) :
    t.state.error = if t.filled ≤ cs.length then none else e := by
  have hle : min t.filled (cs.length + 1) ≤ cs.length ↔ t.filled ≤ cs.length := by omega
  have herror := error_iterate h (Nat.min_le_right t.filled _)
  rw [if_congr hle rfl rfl] at herror
  rw [hf.state_eq]
  exact herror

/-- There are no more characters than bytes. -/
theorem length_le_byteCount (h : feed.Gives cs e) : cs.length ≤ feed.byteCount := by
  refine Nat.le_trans ?_ feed.length_contents_le
  rw [Feed.Gives] at h
  generalize feed.contents.1 = bytes at h ⊢
  induction h with
  | finish | stray | short | wrong => exact Nat.zero_le _
  | @char c bytes cs _ _ ih =>
    obtain ⟨b, bs, hencoded, -⟩ := exists_utf8EncodeChar c
    rw [hencoded, List.length_append, List.length_cons, List.length_cons]
    omega

end Reader

end Ramify.Source
